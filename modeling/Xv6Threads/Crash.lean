import Mathlib.Tactic.Common

namespace Xv6Threads.Crash

variable {D : Type*} (images : D → List D) (final : D → D)

/-- `e` is what is left after any number of interrupted runs from `d` and one complete run. -/
inductive Recovers : D → D → Prop
  | done (d : D) : Recovers d (final d)
  | crash {d d' e : D} : d' ∈ d :: images d → Recovers d' e → Recovers d e

variable {images final}

/-- An assertion kept at every crash point and turned into `Q` by a complete run. -/
theorem Recovers.post {P Q : D → Prop} (himages : ∀ d, P d → ∀ d' ∈ images d, P d')
    (hfinal : ∀ d, P d → Q (final d)) {d e : D} (h : Recovers images final d e) (hd : P d) :
    Q e := by
  induction h with
  | done d => exact hfinal d hd
  | @crash d d' e hmem _ ih =>
    apply ih
    rcases List.mem_cons.mp hmem with rfl | hmem
    · exact hd
    · exact himages d hd d' hmem

end Xv6Threads.Crash
