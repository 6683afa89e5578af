import RuleInliner.Linear.Basic
import RuleInliner.Planner.Frame

/-!
# What one pass of the linear driver does

`linearStep_ok` says, once for every later proof, what one pass of the body of the driver's
`while (true)` can do to the rules and their `valid` flags: at a `break` it leaves them, or
only renames the variables of `acc[i]`; when the loop goes on, `acc[i]` has been replaced by
its resolvent with the valid rule `acc[j]` (`j ≠ i`), and `valid[j]` has been cleared, or,
with branching allowed, kept. `add_rule` and `del_rule` touch neither. `linearStep_false` and
`linearStep_true` say the same in full, every check of the loop body and the converters
included, for the proofs that the driver loses no atom (`Linear/Complete.lean`) and that the
proof converter rebuilds every rule it leaves (`Replay.lean`).
-/

namespace RuleInliner

lemma except_map_eq_ok {ε α β : Type} {f : α → β} {x : Except ε α} {b : β}
    (h : Except.map f x = .ok b) : ∃ a, x = .ok a ∧ f a = b := by
  cases x with
  | error e => cases h
  | ok a => exact ⟨a, rfl, by cases h; rfl⟩

namespace LinearState

/-- Registering tail atoms touches only the tail visitor and the tail index. -/
lemma foldl_addTail (i : Nat) : ∀ (l : List Atom) (s : LinearState), ∃ tp ti,
    l.foldl (fun s t => { s with tailPositions := Positions.addPosition t i s.tailPositions,
                                 tailIndex := s.tailIndex.insert t }) s =
      { s with tailPositions := tp, tailIndex := ti }
  | [], s => ⟨s.tailPositions, s.tailIndex, rfl⟩
  | t :: l, s => by
    obtain ⟨tp, ti, h⟩ := foldl_addTail i l _
    exact ⟨tp, ti, by rw [List.foldl_cons, h]⟩

/-- `add_rule` changes the visitors, the indices and the flags `can_remove`, `can_expand`. -/
lemma addRule_eq (ctx : Context) (facts : List Pred) (s : LinearState) (r : Rule) (i : Nat) :
    ∃ hp tp hi ti cr ce, s.addRule ctx facts r i =
      { s with headPositions := hp, tailPositions := tp, headIndex := hi, tailIndex := ti,
               canRemove := cr, canExpand := ce } := by
  unfold addRule
  dsimp only
  split_ifs <;>
  · obtain ⟨tp, ti, h⟩ := foldl_addTail i (r.pos ++ r.neg) _
    rw [h]
    exact ⟨_, tp, _, ti, _, _, rfl⟩

section
variable (ctx : Context) (facts : List Pred) (s : LinearState) (r : Rule) (i : Nat)

@[simp] lemma addRule_acc : (s.addRule ctx facts r i).acc = s.acc := by
  obtain ⟨_, _, _, _, _, _, h⟩ := addRule_eq ctx facts s r i; rw [h]

@[simp] lemma addRule_valid : (s.addRule ctx facts r i).valid = s.valid := by
  obtain ⟨_, _, _, _, _, _, h⟩ := addRule_eq ctx facts s r i; rw [h]

@[simp] lemma addRule_cv : (s.addRule ctx facts r i).cv = s.cv := by
  obtain ⟨_, _, _, _, _, _, h⟩ := addRule_eq ctx facts s r i; rw [h]

/-- `add_rule` clears `can_remove` at its position for a rule of an output predicate or of a
predicate with facts. -/
lemma addRule_canRemove : (s.addRule ctx facts r i).canRemove =
    if (ctx.isOutputPredicate r.decl || decide (r.decl ∈ facts)) = true
    then s.canRemove.set i false else s.canRemove := by
  unfold addRule
  dsimp only
  split_ifs <;>
  · obtain ⟨tp, ti, h⟩ := foldl_addTail i (r.pos ++ r.neg) _
    rw [h]

end

/-- `del_rule` changes only the two visitors. -/
lemma delRule_eq {s s' : LinearState} {r : Rule} {i : Nat} (h : s.delRule r i = .ok s') :
    ∃ hp tp, s' = { s with headPositions := hp, tailPositions := tp } := by
  unfold delRule at h
  split at h
  · cases h
  · split at h
    · cases h
    · cases h; exact ⟨_, _, rfl⟩

end LinearState

/-- What one pass of the loop body can do to the rules and their `valid` flags. -/
theorem linearStep_ok {ctx : Context} {facts : List Pred} {ab : Bool} {i : Nat}
    {s s' : LinearState} {b : Bool} (h : linearStep ctx facts ab i s = .ok (b, s')) :
    (b = false ∧ s'.valid = s.valid ∧
      (s'.acc = s.acc ∨ s'.acc = s.acc.set i s.acc[i]!.normVars)) ∨
    (b = true ∧ ∃ j res cv', s.valid[j]! = true ∧ i ≠ j ∧
      tryToInlineRule ctx s.cv s.acc[i]! s.acc[j]! 0 = (some res, cv') ∧
      s'.acc = (s.acc.set i s.acc[i]!.normVars).set i res ∧
      (s'.valid = s.valid.set j false ∨ (ab = true ∧ s'.valid = s.valid))) := by
  unfold linearStep at h
  dsimp only at h
  split at h
  · cases h; exact .inl ⟨rfl, rfl, .inl rfl⟩
  split at h
  swap
  · cases h; exact .inl ⟨rfl, rfl, .inl rfl⟩
  rename_i j _
  split at h
  · cases h; exact .inl ⟨rfl, rfl, .inl rfl⟩
  rename_i h₂
  simp only [Bool.or_eq_true, Bool.not_eq_true', not_or, Bool.not_eq_false, decide_eq_true_eq]
    at h₂
  split at h
  · cases h; exact .inl ⟨rfl, rfl, .inl rfl⟩
  rename_i h₃
  split at h
  · cases h; exact .inl ⟨rfl, rfl, .inr rfl⟩
  rename_i res hres
  split at h
  · cases h
  rename_i hdel
  obtain ⟨_, _, rfl⟩ := LinearState.delRule_eq hdel
  split at h
  · -- `valid[j]` is cleared
    obtain ⟨s₂, hs₂, he⟩ := except_map_eq_ok h
    obtain ⟨_, _, rfl⟩ := LinearState.delRule_eq hs₂
    cases he
    exact .inr ⟨rfl, j, res, _, h₂.1.2, h₂.2, Prod.ext hres rfl, by simp, .inl (by simp)⟩
  · -- with branching, `valid[j]` is kept
    cases h
    refine .inr ⟨rfl, j, res, _, h₂.1.2, h₂.2, Prod.ext hres rfl, by simp, .inr ⟨?_, by simp⟩⟩
    simp_all

/-- A pass of the loop body that breaks leaves the state as it was, or only renames the
variables of `acc[i]`. -/
lemma linearStep_false {ctx : Context} {facts : List Pred} {ab : Bool} {i : Nat}
    {s s' : LinearState} (h : linearStep ctx facts ab i s = .ok (false, s')) :
    s' = s ∨ s' = { s with acc := s.acc.set i s.acc[i]!.normVars } := by
  unfold linearStep at h
  dsimp only at h
  split at h; · cases h; exact .inl rfl
  split at h; swap; · cases h; exact .inl rfl
  split at h; · cases h; exact .inl rfl
  split at h; · cases h; exact .inl rfl
  split at h; · cases h; exact .inr rfl
  split at h; · cases h
  split at h
  · obtain ⟨_, -, he⟩ := except_map_eq_ok h
    cases he
  · cases h

/-- What a pass of the loop body that goes on has checked and done: `acc[i]` is valid and
expandable; the head query of its tail atom found position `j` alone, which is removable, valid
and not `i`; the tail query of `acc[j]`'s head found one position, unless branching is allowed;
`try_to_inline_rule` returned a resolvent, which `acc[i]` now holds; `valid[j]` is cleared
exactly when the tail query found one position; `add_rule` set `can_remove` for the resolvent;
`done_something` is set; the converters are those `try_to_inline_rule` left, with `acc[j]`
recorded as deleted when `valid[j]` is cleared. -/
lemma linearStep_true {ctx : Context} {facts : List Pred} {ab : Bool} {i : Nat}
    {s s' : LinearState} (h : linearStep ctx facts ab i s = .ok (true, s')) :
    ∃ j rlRes cv', s.valid[i]! = true ∧ s.canExpand[i]! = true ∧
      queryIndex ctx s.headIndex s.headPositions s.acc[i]!.pos[0]! = [j] ∧
      s.canRemove[j]! = true ∧ s.valid[j]! = true ∧ i ≠ j ∧
      (ab = true ∨ (queryIndex ctx s.tailIndex s.tailPositions s.acc[j]!.head).length = 1) ∧
      tryToInlineRule ctx s.cv s.acc[i]! s.acc[j]! 0 = (some rlRes, cv') ∧
      s'.acc = (s.acc.set i s.acc[i]!.normVars).set i rlRes ∧
      s'.valid = (if (queryIndex ctx s.tailIndex s.tailPositions s.acc[j]!.head).length = 1
        then s.valid.set j false else s.valid) ∧
      s'.canRemove = (if (ctx.isOutputPredicate rlRes.decl || decide (rlRes.decl ∈ facts)) = true
        then s.canRemove.set i false else s.canRemove) ∧
      s'.doneSomething = true ∧
      s'.cv = (if (queryIndex ctx s.tailIndex s.tailPositions s.acc[j]!.head).length = 1
        then cv'.delRule s.acc[j]! else cv') := by
  unfold linearStep at h
  dsimp only at h
  split at h; · cases h
  rename_i hvc
  simp only [Bool.or_eq_true, Bool.not_eq_true', not_or, Bool.not_eq_false] at hvc
  split at h; swap; · cases h
  rename_i j hq
  split at h; · cases h
  rename_i h₂
  simp only [Bool.or_eq_true, Bool.not_eq_true', not_or, Bool.not_eq_false, decide_eq_true_eq] at h₂
  split at h; · cases h
  rename_i h₃
  have hab : ab = true ∨ (queryIndex ctx s.tailIndex s.tailPositions s.acc[j]!.head).length = 1 := by
    cases ab <;> simp_all
  split at h; · cases h
  rename_i rlRes hres
  split at h; · cases h
  rename_i hdel
  obtain ⟨_, _, rfl⟩ := LinearState.delRule_eq hdel
  split at h
  · obtain ⟨_, hs₂, he⟩ := except_map_eq_ok h
    obtain ⟨_, _, rfl⟩ := LinearState.delRule_eq hs₂
    cases he
    exact ⟨j, rlRes, _, hvc.1, hvc.2, hq, h₂.1.1, h₂.1.2, h₂.2, hab, Prod.ext hres rfl,
      by simp, by simp [*], by simp [LinearState.addRule_canRemove], rfl, (if_pos ‹_›).symm⟩
  · cases h
    exact ⟨j, rlRes, _, hvc.1, hvc.2, hq, h₂.1.1, h₂.1.2, h₂.2, hab, Prod.ext hres rfl,
      by simp, by simp [*], by simp [LinearState.addRule_canRemove], rfl, (if_neg ‹_›).symm⟩

lemma foldl_addRule (ctx : Context) (facts : List Pred) (rules : RuleSet) :
    ∀ (l : List Nat) (s : LinearState),
      (l.foldl (fun s i => s.addRule ctx facts rules[i]! i) s).acc = s.acc ∧
      (l.foldl (fun s i => s.addRule ctx facts rules[i]! i) s).valid = s.valid
  | [], _ => ⟨rfl, rfl⟩
  | i :: l, s => by
    obtain ⟨h₁, h₂⟩ := foldl_addRule ctx facts rules l (s.addRule ctx facts rules[i]! i)
    exact ⟨h₁.trans (LinearState.addRule_acc ..), h₂.trans (LinearState.addRule_valid ..)⟩

@[simp] lemma linearInit_acc (ctx : Context) (facts : List Pred) (cv : Converters)
    (rules : RuleSet) : (linearInit ctx facts cv rules).acc = rules :=
  (foldl_addRule ctx facts rules _ _).1

@[simp] lemma linearInit_valid (ctx : Context) (facts : List Pred) (cv : Converters)
    (rules : RuleSet) : (linearInit ctx facts cv rules).valid = List.replicate rules.length true :=
  (foldl_addRule ctx facts rules _ _).2

@[simp] lemma linearInit_cv (ctx : Context) (facts : List Pred) (cv : Converters)
    (rules : RuleSet) : (linearInit ctx facts cv rules).cv = cv := by
  suffices ∀ (l : List Nat) (s : LinearState),
      (l.foldl (fun s i => s.addRule ctx facts rules[i]! i) s).cv = s.cv from this _ _
  intro l
  induction l with
  | nil => exact fun _ => rfl
  | cons i l ih => exact fun s => (ih _).trans (LinearState.addRule_cv ..)

/-! ## Errors of one pass -/

section Errors
variable {ctx : Context} {e : PassError}

lemma except_map_eq_error {α β : Type} {f : α → β} {x : Except PassError α}
    (h : Except.map f x = .error e) : x = .error e := by
  cases x with
  | error e' => cases h; rfl
  | ok a => cases h

lemma delPosition_error {a : Atom} {j : Nat} :
    ∀ {m : Positions}, Positions.delPosition a j m = .error e → e = .nullDeref
  | [], h => by cases h; rfl
  | (b, js) :: m, h => by
    unfold Positions.delPosition at h
    split_ifs at h
    split at h
    · cases h; exact delPosition_error ‹_›
    · cases h

lemma delRule_error {s : LinearState} {r : Rule} {i : Nat} (h : s.delRule r i = .error e) :
    e = .nullDeref := by
  unfold LinearState.delRule at h
  split at h
  · cases h; exact delPosition_error ‹_›
  split at h
  · cases h
    exact @foldlM_error _ _ _ _ (fun e => e = .nullDeref) (fun _ _ _ h => delPosition_error h)
      _ _ _ ‹_›
  · cases h

lemma linearStep_error {facts : List Pred} {ab : Bool} {i : Nat} {s : LinearState}
    (h : linearStep ctx facts ab i s = .error e) : e = .nullDeref := by
  unfold linearStep at h
  dsimp only at h
  split at h; · cases h
  split at h; swap; · cases h
  split at h; · cases h
  split at h; · cases h
  split at h; · cases h
  split at h
  · cases h; exact delRule_error ‹_›
  split at h
  · exact delRule_error (except_map_eq_error h)
  · cases h

end Errors

end RuleInliner
