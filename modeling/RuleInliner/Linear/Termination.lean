import RuleInliner.Linear.Step
import RuleInliner.Reference

/-!
# Termination of the linear driver

Without branching (`:inline-linear-branch` false, the default) every pass of the driver's
`while (true)` at position `i` that goes on clears `valid[j]` for a valid `j ≠ i`
(`linearStep_ok`), so the number of valid rules bounds the passes: with one pass more than
there are rules, the loop at every position stops, at a `break` or on the null dereference of
`del_rule`, and `inline_linear` never runs out of fuel.

With branching a pass may clear nothing (`num_tail_unifiers > 1`), and the loop need not stop:
on `H(x) :- Q(x). Q(x) :- Q(x).` the pass at position 0 rewrites rule 0 into itself, and the
state after the first pass is a fixed point of the loop body.
-/

namespace RuleInliner

/-- Clearing a set flag lowers the number of set flags by one. -/
lemma count_set_false {l : List Bool} {j : Nat} (h : l[j]! = true) :
    (l.set j false).count true + 1 = l.count true := by
  have hj : j < l.length := by
    by_contra hj
    rw [getElem!_neg l j hj] at h
    cases h
  rw [getElem!_pos l j hj] at h
  have hpos := List.count_pos_iff.mpr (h ▸ List.getElem_mem hj : true ∈ l)
  rw [List.count_set _ _ _ _ hj, h]
  simp only [beq_self_eq_true, show (false == true) = false from rfl, Bool.false_eq_true,
    ↓reduceIte]
  omega

section
variable {ctx : Context} {facts : List Pred} {ab : Bool} {i : Nat}

lemma linearStep_valid_length {s s' : LinearState} {b : Bool}
    (h : linearStep ctx facts ab i s = .ok (b, s')) : s'.valid.length = s.valid.length := by
  rcases linearStep_ok h with ⟨-, hv, -⟩ | ⟨-, j, -, -, -, -, -, -, hv | ⟨-, hv⟩⟩ <;>
    simp [hv]

/-- Without branching, a pass that goes on clears one valid rule. -/
lemma linearStep_valid_count {s s' : LinearState}
    (h : linearStep ctx facts false i s = .ok (true, s')) :
    s'.valid.count true + 1 = s.valid.count true := by
  rcases linearStep_ok h with ⟨h, -⟩ | ⟨-, j, -, -, hj, -, -, -, hv | ⟨h, -⟩⟩
  · cases h
  · rw [hv]; exact count_set_false hj
  · cases h

lemma linearLoop_valid_length :
    ∀ {n} {s s' : LinearState}, linearLoop ctx facts ab i n s = .ok s' →
      s'.valid.length = s.valid.length
  | 0, _, _, h => by cases h
  | n + 1, s, s', h => by
    rw [linearLoop] at h
    split at h
    · cases h
    · exact (linearLoop_valid_length h).trans (linearStep_valid_length ‹_›)
    · cases h; exact linearStep_valid_length ‹_›

/-- Without branching, the loop at position `i` stops within one pass more than there are
valid rules. -/
lemma linearLoop_ne_outOfFuel :
    ∀ {n} {s : LinearState}, s.valid.count true < n →
      linearLoop ctx facts false i n s ≠ .error .outOfFuel
  | 0, _, hn => absurd hn (Nat.not_lt_zero _)
  | n + 1, s, hn => by
    rw [linearLoop]
    split
    · next e he => exact fun h => by cases h; cases linearStep_error he
    · next s' hs' =>
      have := linearStep_valid_count hs'
      exact linearLoop_ne_outOfFuel (by omega)
    · exact fun h => by cases h

lemma linearDriver_ne_outOfFuel {fuel : Nat} :
    ∀ {is} {s : LinearState}, s.valid.length < fuel →
      linearDriver ctx fuel facts false is s ≠ .error .outOfFuel
  | [], _, _ => fun h => by cases h
  | i :: is, s, hs => by
    rw [linearDriver]
    split
    · next e he =>
      have hlt := Nat.lt_of_le_of_lt (List.count_le_length true s.valid) hs
      exact fun h => by cases h; exact linearLoop_ne_outOfFuel hlt he
    · next s' hs' => exact linearDriver_ne_outOfFuel (linearLoop_valid_length hs' ▸ hs)

/-- More fuel does not change a finished loop. -/
lemma linearLoop_add (k : Nat) :
    ∀ {n} {s s' : LinearState}, linearLoop ctx facts ab i n s = .ok s' →
      linearLoop ctx facts ab i (n + k) s = .ok s'
  | 0, _, _, h => by cases h
  | n + 1, s, s', h => by
    rw [Nat.add_right_comm]
    rw [linearLoop] at h ⊢
    split at h
    · cases h
    · exact linearLoop_add k h
    · exact h

/-- More fuel does not change a finished driver. -/
lemma linearDriver_add {fuel : Nat} (k : Nat) :
    ∀ {is} {s s' : LinearState}, linearDriver ctx fuel facts ab is s = .ok s' →
      linearDriver ctx (fuel + k) facts ab is s = .ok s'
  | [], _, _, h => h
  | i :: is, s, s', h => by
    rw [linearDriver] at h ⊢
    split at h
    · cases h
    · rename_i hs; rw [linearLoop_add k hs]; exact linearDriver_add k h

end

/-- Without branching, `inline_linear` on `n` rules never needs more than `n + 1` passes of the
loop at any position. -/
theorem inlineLinear_terminates {ctx : Context} {st : Inliner} {rules : RuleSet} {fuel : Nat}
    (hb : ctx.params.getBool ":inline-linear-branch" false = false) (hf : rules.length < fuel) :
    inlineLinear ctx fuel st rules ≠ .error .outOfFuel := by
  unfold inlineLinear
  dsimp only
  rw [hb]
  split
  · next e he =>
    exact fun h => by cases h; exact linearDriver_ne_outOfFuel (by simpa using hf) he
  · split <;> exact fun h => by cases h

/-- `H(x) :- Q(x).` and `Q(x) :- Q(x).` -/
def selfLoopRules : RuleSet :=
  [⟨⟨⟨0, 1⟩, [.var 0]⟩, [⟨⟨1, 1⟩, [.var 0]⟩], [], []⟩,
   ⟨⟨⟨1, 1⟩, [.var 0]⟩, [⟨⟨1, 1⟩, [.var 0]⟩], [], []⟩]

/-- `H` is the output predicate, and `:inline-linear-branch` is `branch`. -/
def loopContext (branch : Bool) : Context :=
  Context.reference [⟨0, 1⟩] [] ⟨[(":inline-linear-branch", .bool branch)]⟩

/-- Without branching the loop at position 0 breaks at once: `Q(x)` unifies with two tails. -/
theorem inlineLinear_terminates_selfLoop :
    (loopContext false).params.getBool ":inline-linear-branch" false = false ∧
      selfLoopRules.length < 3 ∧
      inlineLinear (loopContext false) 3 Inliner.init selfLoopRules ≠ .error .outOfFuel :=
  ⟨rfl, by decide, inlineLinear_terminates rfl (by decide)⟩

/-- A state the loop body maps to itself exhausts every fuel. -/
lemma linearLoop_of_step_self {ctx : Context} {facts : List Pred} {ab : Bool} {i : Nat}
    {s : LinearState} (h : linearStep ctx facts ab i s = .ok (true, s)) :
    ∀ n, linearLoop ctx facts ab i n s = .error .outOfFuel
  | 0 => rfl
  | n + 1 => by rw [linearLoop, h]; exact linearLoop_of_step_self h n

/-- With branching, `inline_linear` runs out of every fuel on `selfLoopRules`. -/
theorem inlineLinear_branching_diverges :
    (fun fuel => inlineLinear (loopContext true) fuel Inliner.init selfLoopRules) =
      fun _ => .error .outOfFuel := by
  funext fuel
  obtain ⟨s₁, h₀, h₁⟩ : ∃ s₁, linearStep (loopContext true) Inliner.init.predsWithFacts true 0
      (linearInit (loopContext true) Inliner.init.predsWithFacts Inliner.init.cv selfLoopRules) =
        .ok (true, s₁) ∧
      linearStep (loopContext true) Inliner.init.predsWithFacts true 0 s₁ = .ok (true, s₁) :=
    ⟨_, rfl, rfl⟩
  have hloop : linearLoop (loopContext true) Inliner.init.predsWithFacts true 0 fuel
      (linearInit (loopContext true) Inliner.init.predsWithFacts Inliner.init.cv selfLoopRules) =
        .error .outOfFuel := by
    cases fuel with
    | zero => rfl
    | succ n => rw [linearLoop, h₀]; exact linearLoop_of_step_self h₁ n
  have hb : (loopContext true).params.getBool ":inline-linear-branch" false = true := rfl
  have hr : List.range selfLoopRules.length = [0, 1] := rfl
  unfold inlineLinear
  dsimp only
  rw [hb, hr, linearDriver, hloop]

end RuleInliner
