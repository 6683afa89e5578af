import RuleInliner.Planner.Basic

/-!
# Bulk inlining

Model of `transform_rule`, `transform_rules` and `plan_inlining`. `transform_rule` runs a
worklist (`todo`, used as a stack: `push_back`, `back`, `pop_back`): a rule with a
quantified interpreted tail is dropped, a rule with no admissible positive tail atom goes to
the target set, and any other rule is replaced by its resolvents with every rule of
`m_inlined_rules` defining its first admissible atom. The loop has no bound in the source,
so the model runs it on fuel (`transformRuleLoop`), and so does the cycle-breaking loop of
`plan_inlining` (`cycleLoop`); running out of fuel is the error `outOfFuel`.

`plan_inlining` fills `m_inlined_rules` by calling `transform_rule` with that very set as
target, so inside those calls the lookups see the rules already added; the flag `self` of
`transformRuleLoop` says so.

Beside each loop stands what one of its steps does (`transformRuleLoop_cons_cases`,
`transformRules_cons_eq_ok`, `Inliner.fillRule_eq_ok`, `Inliner.planInlining_eq_ok`) and the
invariant rule of the filling loop (`Inliner.fill_invariant`); the proofs about these loops
case on them instead of unfolding the loops.
-/

namespace RuleInliner

/-- The inner loop of `transform_rule`: inline each source rule in turn at tail `i` of `r`,
keeping the resolvents in order. -/
def inlineAll (ctx : Context) (r : Rule) (i : Nat) : Converters → List Rule → List Rule × Converters
  | cv, [] => ([], cv)
  | cv, src :: srcs =>
    let res := tryToInlineRule ctx cv r src i
    let rest := inlineAll ctx r i res.2 srcs
    (res.1.toList ++ rest.1, rest.2)

/-- The worklist loop of `mk_rule_inliner::transform_rule`, on fuel. Returns the target
set, the flag `modified` and the converters. -/
def transformRuleLoop (ctx : Context) (st : Inliner) (self : Bool) :
    Nat → List Rule → RuleSet → Bool → Converters →
      Except PassError (RuleSet × Bool × Converters)
  | 0, _, _, _, _ => .error .outOfFuel
  | _ + 1, [], tgt, modified, cv => .ok (tgt, modified, cv)
  | n + 1, r :: todo, tgt, modified, cv =>
    if r.hasQuantifier then transformRuleLoop ctx st self n todo tgt modified cv
    else
      match r.pos[r.pos.findIdx fun a => st.inliningAllowed ctx a.pred]? with
      | none => transformRuleLoop ctx st self n todo (tgt ++ [r]) modified cv
      | some a =>
        let inl : RuleSet := if self then tgt else st.inlinedRules
        let res := inlineAll ctx r (r.pos.findIdx fun a => st.inliningAllowed ctx a.pred) cv
          (inl.predicateRules a.pred)
        transformRuleLoop ctx st self n (res.1.reverse ++ todo) tgt true res.2

/-- What one step of `transform_rule` does with the rule `r` on top of the worklist: drop it
(a quantified interpreted tail), move it to the target (no admissible positive tail atom), or
replace it by its resolvents at an admissible atom `i`. -/
lemma transformRuleLoop_cons_cases {ctx : Context} {st : Inliner} {self : Bool} (r : Rule) :
    (r.hasQuantifier = true ∧ ∀ n todo tgt modified cv,
      transformRuleLoop ctx st self (n + 1) (r :: todo) tgt modified cv =
        transformRuleLoop ctx st self n todo tgt modified cv) ∨
    (r.hasQuantifier = false ∧ (∀ a ∈ r.pos, st.inliningAllowed ctx a.pred = false) ∧
      ∀ n todo tgt modified cv,
        transformRuleLoop ctx st self (n + 1) (r :: todo) tgt modified cv =
          transformRuleLoop ctx st self n todo (tgt ++ [r]) modified cv) ∨
    (r.hasQuantifier = false ∧ ∃ (i : Nat) (hi : i < r.pos.length),
      st.inliningAllowed ctx r.pos[i].pred = true ∧ ∀ n todo tgt modified cv,
        transformRuleLoop ctx st self (n + 1) (r :: todo) tgt modified cv =
          transformRuleLoop ctx st self n ((inlineAll ctx r i cv
              ((if self then tgt else st.inlinedRules).predicateRules r.pos[i].pred)).1.reverse ++
            todo) tgt true (inlineAll ctx r i cv
              ((if self then tgt else st.inlinedRules).predicateRules r.pos[i].pred)).2) := by
  by_cases hq : r.hasQuantifier = true
  · exact .inl ⟨hq, fun _ _ _ _ _ => by rw [transformRuleLoop, if_pos hq]⟩
  have hq' : r.hasQuantifier = false := by simpa using hq
  cases hf : r.pos[r.pos.findIdx fun a => st.inliningAllowed ctx a.pred]? with
  | none =>
    refine .inr (.inl ⟨hq', List.findIdx_eq_length.mp (le_antisymm (List.findIdx_le_length _)
      (List.getElem?_eq_none_iff.mp hf)), fun _ _ _ _ _ => ?_⟩)
    rw [transformRuleLoop, if_neg hq]
    simp only [hf]
  | some a =>
    obtain ⟨hi, hia⟩ := List.getElem?_eq_some_iff.mp hf
    have hadm : st.inliningAllowed ctx a.pred = true := (List.findIdx_of_getElem?_eq_some hf :)
    refine .inr (.inr ⟨hq', _, hi, by rw [hia]; exact hadm, fun _ _ _ _ _ => ?_⟩)
    rw [transformRuleLoop, if_neg hq]
    simp only [hf, hia]

/-- `mk_rule_inliner::transform_rules`: transform every rule whose head is not admissible
into `tgt`; the rules of admissible predicates are eliminated. -/
def transformRules (ctx : Context) (fuel : Nat) (st : Inliner) :
    List Rule → RuleSet → Bool → Converters → Except PassError (RuleSet × Bool × Converters)
  | [], tgt, done, cv => .ok (tgt, done, cv)
  | r :: rs, tgt, done, cv =>
    if st.inliningAllowed ctx r.decl then transformRules ctx fuel st rs tgt done cv
    else
      match transformRuleLoop ctx st false fuel [r] tgt false cv with
      | .error e => .error e
      | .ok (tgt, modified, cv) => transformRules ctx fuel st rs tgt (done || modified) cv

/-- A successful step of `transform_rules` skips a rule with an admissible head, or transforms
the rule with a successful call of `transform_rule`. -/
lemma transformRules_cons_eq_ok {ctx : Context} {fuel : Nat} {st : Inliner} {r : Rule}
    {rs : List Rule} {tgt : RuleSet} {done : Bool} {cv : Converters}
    {out : RuleSet × Bool × Converters}
    (h : transformRules ctx fuel st (r :: rs) tgt done cv = .ok out) :
    (st.inliningAllowed ctx r.decl = true ∧ transformRules ctx fuel st rs tgt done cv = .ok out) ∨
    (st.inliningAllowed ctx r.decl = false ∧ ∃ tgt' modified cv',
      transformRuleLoop ctx st false fuel [r] tgt false cv = .ok (tgt', modified, cv') ∧
      transformRules ctx fuel st rs tgt' (done || modified) cv' = .ok out) := by
  rw [transformRules] at h
  by_cases hd : st.inliningAllowed ctx r.decl = true
  · exact .inl ⟨hd, by rwa [if_pos hd] at h⟩
  rw [if_neg hd] at h
  split at h
  · cases h
  · exact .inr ⟨by simpa using hd, _, _, _, ‹_›, h⟩

namespace Inliner

/-- The loop `while (forbid_preds_from_cycles(*candidate_inlined_set))` of `plan_inlining`. -/
def cycleLoop (ctx : Context) (orig : RuleSet) :
    Nat → Inliner → RuleSet → Except PassError (Inliner × RuleSet)
  | 0, _, _ => .error .outOfFuel
  | n + 1, st, cand =>
    let r := st.forbidPredsFromCycles cand
    if r.2 then
      match r.1.createAllowedRuleSet ctx orig with
      | .error e => .error e
      | .ok cand => cycleLoop ctx orig n r.1 cand
    else .ok (r.1, cand)

/-- Transform one rule of a planned predicate into `m_inlined_rules`. -/
def fillRule (ctx : Context) (fuel : Nat) (st : Inliner) (r : Rule) : Except PassError Inliner :=
  match transformRuleLoop ctx st true fuel [r] st.inlinedRules false st.cv with
  | .error e => .error e
  | .ok (tgt, _, cv) => .ok { st with inlinedRules := tgt, cv := cv }

/-- A successful `fillRule` stores what its call of `transform_rule` returned. -/
lemma fillRule_eq_ok {ctx : Context} {fuel : Nat} {st st' : Inliner} {r : Rule}
    (h : fillRule ctx fuel st r = .ok st') :
    ∃ tgt modified cv, transformRuleLoop ctx st true fuel [r] st.inlinedRules false st.cv =
      .ok (tgt, modified, cv) ∧ st' = { st with inlinedRules := tgt, cv := cv } := by
  unfold fillRule at h
  split at h
  · cases h
  · cases h
    exact ⟨_, _, _, ‹_›, rfl⟩

/-- One stratum of the filling loop of `plan_inlining`: the rules of its predicate. -/
def fillStratum (ctx : Context) (fuel : Nat) (cand : RuleSet) (st : Inliner) :
    List Pred → Except PassError Inliner
  | [] => .ok st
  | p :: _ => (cand.predicateRules p).foldlM (fillRule ctx fuel) st

/-- The analyses of `plan_inlining` before its filling loop: count occurrences, break cycles,
guard multipliers; returns the state and the candidate set the filling loop walks. -/
def planCandidates (ctx : Context) (fuel : Nat) (st : Inliner) (orig : RuleSet) :
    Except PassError (Inliner × RuleSet) := do
  let st := st.countPredOccurrences ctx orig
  let cand ← st.createAllowedRuleSet ctx orig
  let (st, cand) ← cycleLoop ctx orig fuel st cand
  let (st, forbidden) := st.forbidMultipleMultipliers ctx orig cand
  let cand ← if forbidden then st.createAllowedRuleSet ctx orig else pure cand
  pure (st, cand)

/-- The filling loop of `plan_inlining`: the strata of the candidate set in order. -/
def fill (ctx : Context) (fuel : Nat) (cand : RuleSet) (st : Inliner) : Except PassError Inliner :=
  cand.strats.foldlM (fillStratum ctx fuel cand) st

/-- `mk_rule_inliner::plan_inlining`. -/
def planInlining (ctx : Context) (fuel : Nat) (st : Inliner) (orig : RuleSet) :
    Except PassError Inliner :=
  match st.planCandidates ctx fuel orig with
  | .error e => .error e
  | .ok (st, cand) => fill ctx fuel cand st

/-- A property that every successful `fillRule` on a rule of the candidate set keeps holds
after the filling loop. -/
lemma fill_invariant {ctx : Context} {fuel : Nat} {cand : RuleSet} (P : Inliner → Prop)
    (hrule : ∀ b r b', P b → r ∈ cand → fillRule ctx fuel b r = .ok b' → P b')
    {st st' : Inliner} (hst : P st) (h : fill ctx fuel cand st = .ok st') : P st' := by
  refine foldlM_invariant (fun b g b' (hb : P b) (_ : True) h => ?_) _ (fun _ _ => trivial)
    st st' hst h
  cases g with
  | nil => cases h; exact hb
  | cons p _ => exact foldlM_invariant hrule _ (fun r hr => (List.mem_filter.mp hr).1) b b' hb h

/-- A successful `plan_inlining` is a successful analysis followed by a successful filling
loop. -/
lemma planInlining_eq_ok {ctx : Context} {fuel : Nat} {st st' : Inliner} {orig : RuleSet}
    (h : st.planInlining ctx fuel orig = .ok st') :
    ∃ st₁ cand, st.planCandidates ctx fuel orig = .ok (st₁, cand) ∧
      fill ctx fuel cand st₁ = .ok st' := by
  unfold planInlining at h
  split at h
  · cases h
  · exact ⟨_, _, ‹_›, h⟩

end Inliner

end RuleInliner
