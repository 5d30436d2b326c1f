/-! # While loops that may fail

A loop tests its state and runs a body that can fail. The bound on the number of rounds only makes the definition
total: a measure that the body lowers says how many rounds are enough, and with an invariant what the loop ends in.
-/

namespace KushDB.While

variable {S : Type}

def whileLoop (test : S → Bool) (body : S → Option S) : Nat → S → Option S
  | 0, _ => none
  | rounds + 1, state => if test state then (body state).bind (whileLoop test body rounds) else some state

theorem whileLoop_rule {test : S → Bool} {body : S → Option S} {post : S → Prop} {rounds : Nat} {state : S}
    (invariant : S → Prop) (measure : S → Nat)
    (hBody : ∀ state, invariant state → test state = true →
      ∃ next, body state = some next ∧ invariant next ∧ measure next < measure state)
    (hPost : ∀ final, invariant final → test final = false → post final) (hState : invariant state)
    (hRounds : measure state < rounds) : ∃ final, whileLoop test body rounds state = some final ∧ post final := by
  induction rounds generalizing state with
  | zero => exact absurd hRounds (Nat.not_lt_zero _)
  | succ rounds ih =>
    by_cases hTest : test state = true
    · obtain ⟨next, hNext, hInvariant, hLess⟩ := hBody state hState hTest
      obtain ⟨final, hFinal, hEnd⟩ := ih hInvariant (by omega)
      exact ⟨final, by rw [whileLoop, if_pos hTest, hNext, Option.bind_some, hFinal], hEnd⟩
    · exact ⟨state, by rw [whileLoop, if_neg hTest], hPost state hState (Bool.eq_false_iff.mpr hTest)⟩

/-- A loop that ended ends the same way with more rounds. -/
theorem whileLoop_mono {test : S → Bool} {body : S → Option S} {rounds more : Nat} {state final : S}
    (h : whileLoop test body rounds state = some final) (hLe : rounds ≤ more) :
    whileLoop test body more state = some final := by
  induction rounds generalizing more state with
  | zero => exact absurd h (by simp [whileLoop])
  | succ rounds ih =>
    obtain ⟨more, rfl⟩ : ∃ n, more = n + 1 := ⟨more - 1, by omega⟩
    rw [whileLoop] at h ⊢
    split at h
    case isTrue hTest =>
      obtain ⟨next, hNext, hRest⟩ := Option.bind_eq_some_iff.mp h
      rw [if_pos hTest, hNext, Option.bind_some]
      exact ih hRest (Nat.le_of_succ_le_succ hLe)
    case isFalse hTest => rwa [if_neg hTest]

end KushDB.While
