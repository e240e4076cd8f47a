import Xv6Threads.SlotSteps
import Xv6Threads.UmallocHeap

namespace Xv6Threads.Umalloc

open Function List BitVec Option
open ProcTable (Kernel Slot Word Event)

/-- A word stored at `a` is the `ptr` of a header at `a`, and the `size` of one 4 bytes below. -/
def store (s : Heap) (a v : Word) : Heap :=
  { s with ptr := update s.ptr a.toNat v.toNat, size := update s.size (a - 4).toNat v.toNat }

def stores (s : Heap) (es : List Event) : Heap :=
  es.foldl (fun s e => match e with
    | .store _ a v => store s a v
    | _ => s) s

theorem push_toNat {a : Word} (ha : 4 ≤ a.toNat) : (a - 4).toNat = a.toNat - 4 :=
  toNat_sub_of_le ha

section
variable {k k' : Kernel} {i np : Slot} {f arg stack : Word} {es : List Event}
  (hpc : k.pc i = .cloneNext np f arg stack)
  (hstep : ProcTable.step k (.cloneDone i) = some (k', es))
include hpc hstep

theorem cloneDone_stores :
    (∃ tid, es = [.store i (stack - 4) arg, .store i (stack - 4 - 4) 0xFFFFFFFF, .ret i tid]) ∧
      (k'.proc np).tf.esp = stack - 4 - 4 := by
  simp only [ProcTable.step] at hstep
  split_ifs at hstep
  rw [hpc] at hstep
  obtain ⟨rfl, rfl⟩ := ProcTable.some_pair.mp hstep
  refine ⟨⟨_, rfl⟩, ?_⟩
  rw [ProcTable.setPc_proc]
  dsimp only [ProcTable.setState, ProcTable.setProc]
  by_cases hnp : np = i
  · rw [hnp, update_self, update_self]
  · rw [update_of_ne hnp, update_self]

/-- Whatever the heap, no word that `clone` stores lies in the block and the thread does not start
in it: the words are its header. -/
theorem clone_below_block {base : ℕ} (hbase : 0 < base) {s : Sys} (h : Reachable base s)
    {sbrk : Sbrk} (hsbrk : Fresh base sbrk) {heap : Heap}
    (hm : malloc base sbrk s.heap 4096 = some (stack.toNat, heap)) (hstack : stack.toNat ≠ 0) :
    (∃ tid, es = [.store i (stack - 4) arg, .store i (stack - 4 - 4) 0xFFFFFFFF, .ret i tid]) ∧
    (∀ p a v, Event.store p a v ∈ es → a.toNat < stack.toNat) ∧
    (k'.proc np).tf.esp.toNat = stack.toNat - HEADER ∧
    stack.toNat + 4096 ≤ stack.toNat - HEADER + HEADER * heap.size (stack.toNat - HEADER) ∧
    (stores heap es).size (stack.toNat - HEADER) = arg.toNat ∧
    (stores heap es).ptr (stack.toNat - HEADER) = 0xFFFFFFFF := by
  have hsmall : Small 4096 := by unfold Small; decide
  have ht : Reachable base ⟨heap, (stack.toNat, 4096) :: s.live⟩ := by
    refine .step (a := .malloc 4096 sbrk) h ⟨hsmall, hsbrk⟩ ?_
    rw [Umalloc.step, hm, map_some]
    dsimp only
    rw [if_neg hstack]
  obtain ⟨hinv, hroom⟩ := ht.room hbase
  obtain ⟨L, hkept⟩ := hinv.resolve_left fun hstart => cons_ne_nil _ _ hstart.2.2
  have hhead := hkept.live _ mem_cons_self
  have hsize := hroom _ mem_cons_self
  have hlow := hkept.ready.base_lt (mem_append_right L mem_cons_self)
  dsimp only [header] at hhead hsize hlow
  have hheader : HEADER = 8 := rfl
  have hfour := push_toNat (a := stack) (by omega)
  have height : (stack - 4 - 4).toNat = stack.toNat - HEADER := by
    rw [push_toNat (by omega)]
    omega
  have htwelve : (stack - 4 - 4 - 4).toNat = stack.toNat - HEADER - 4 := by
    rw [push_toNat (by omega), height]
  obtain ⟨⟨tid, hes⟩, hesp⟩ := cloneDone_stores hpc hstep
  refine ⟨⟨tid, hes⟩, ?_, hesp ▸ height, by omega, ?_, ?_⟩
  · intro p a v hmem
    rw [hes] at hmem
    simp only [mem_cons, Event.store.injEq, reduceCtorEq, not_mem_nil, or_false] at hmem
    rcases hmem with ⟨-, rfl, -⟩ | ⟨-, rfl, -⟩ <;> omega
  · rw [hes]
    change update (update heap.size (stack - 4 - 4).toNat _) (stack - 4 - 4 - 4).toNat _ _ = _
    rw [htwelve, height, update_of_ne (by omega), update_self]
  · rw [hes]
    change update _ (stack - 4 - 4).toNat _ _ = _
    rw [height, update_self]
    rfl

end

theorem exists_clone : ∃ k k' es, ProcTable.Reachable (fun _ _ => True) k ∧
    k.pc 0 = .cloneNext 1 0 0 36864 ∧ ProcTable.step k (.cloneDone 0) = some (k', es) := by
  obtain ⟨k, hk, hp⟩ := ProcTable.exists_run
    (fun k => decide (k.pc 0 = .cloneNext 1 0 0 36864) && ProcTable.running k 0)
    [.dispatch 0, .sbrk 0 40960, .clone 0 0 0 36864 true, .clonePid 0, .cloneNext 0]
    (by decide +kernel)
  rw [Bool.and_eq_true, decide_eq_true_eq] at hp
  obtain ⟨⟨k', es⟩, hstep⟩ : ∃ r, ProcTable.step k (.cloneDone 0) = some r :=
    ⟨ProcTable.cloneDone k 0 1 0 0 36864, by simp only [ProcTable.step, hp.1, hp.2, if_true]⟩
  exact ⟨k, k', es, hk, hp.1, hstep⟩

theorem clone_below_block_init : ∃ k k' es heap, k.pc 0 = .cloneNext 1 0 0 36864 ∧
    ProcTable.step k (.cloneDone 0) = some (k', es) ∧
    malloc 4096 oneArea empty 4096 = some (36864, heap) ∧
    (k'.proc 1).tf.esp.toNat = 36856 ∧ (stores heap es).size 36856 = 0 := by
  obtain ⟨k, k', es, -, hpc, hstep⟩ := exists_clone
  have hmap : (malloc 4096 oneArea empty 4096).map Prod.fst = some (36864 : Word).toNat := by
    decide +kernel
  obtain ⟨⟨-, heap⟩, hm, rfl⟩ := map_eq_some_iff.mp hmap
  have hreach : Reachable 4096 ⟨empty, []⟩ := .start ⟨rfl, rfl, rfl⟩
  obtain ⟨-, -, hesp, -, hsize, -⟩ :=
    clone_below_block hpc hstep (by decide) hreach oneArea_fresh hm (by decide)
  exact ⟨k, k', es, heap, hpc, hstep, hm, hesp, hsize⟩

/-- After `free` the list has 3583 of the 4096 units. -/
theorem clone_loses_block : ∃ k k' es heap t, ProcTable.Reachable (fun _ _ => True) k ∧
    k.pc 0 = .cloneNext 1 0 0 36864 ∧ ProcTable.step k (.cloneDone 0) = some (k', es) ∧
    malloc 4096 oneArea empty 4096 = some (36864, heap) ∧ free (stores heap es) 36864 = some t ∧
    t.ptr 4096 = 8192 ∧ t.ptr 8192 = 4096 ∧ t.size 8192 = 3583 := by
  obtain ⟨k, k', es, hk, hpc, hstep⟩ := exists_clone
  obtain ⟨⟨tid, rfl⟩, -⟩ := cloneDone_stores hpc hstep
  have hrun : ((malloc 4096 oneArea empty 4096).bind fun r =>
      (free (store (store r.2 36860 0) 36856 0xFFFFFFFF) 36864).map fun t =>
        (r.1, t.ptr 4096, t.ptr 8192, t.size 8192)) = some (36864, 8192, 4096, 3583) := by
    decide +kernel
  obtain ⟨⟨stack, heap⟩, hm, hrun⟩ := bind_eq_some_iff.mp hrun
  obtain ⟨t, hfree, hvalues⟩ := map_eq_some_iff.mp hrun
  simp only [Prod.mk.injEq] at hvalues
  obtain ⟨rfl, hvalues⟩ := hvalues
  exact ⟨k, k', _, heap, t, hk, hpc, hstep, hm, hfree, hvalues⟩

end Xv6Threads.Umalloc
