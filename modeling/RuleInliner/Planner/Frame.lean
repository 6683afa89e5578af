import RuleInliner.Bulk.Basic

/-!
# What the analyses of `plan_inlining` change

`count_pred_occurrences` only adds to the object's counters and predicate sets. After it,
`forbid_preds_from_cycles` and `forbid_multiple_multipliers` touch two fields only: they
forbid predicates and promote `m_head_pred_ctr`. `Inliner.Frame st st'` says so, and every
analysis is shown to stay within it (`frame_planCandidates`). Later proofs read from it that
the predicates with a negated occurrence, and `m_inlined_rules`, are those counting left.

The loops on fuel grow with their fuel: a run that ends within `n` iterations gives the same
result with more (`cycleLoop_add`, `planCandidates_add`).
-/

namespace RuleInliner

/-- Membership in a list built by repeated `insert`. -/
lemma mem_foldl_insert {α : Type} [DecidableEq α] {x : α} :
    ∀ (l s : List α), x ∈ l.foldl (fun s p => s.insert p) s ↔ x ∈ s ∨ x ∈ l
  | [], s => by simp
  | p :: l, s => by
    rw [List.foldl_cons, mem_foldl_insert l, List.mem_insert_iff, List.mem_cons]
    exact or_assoc.trans or_left_comm

namespace Inliner

variable {ctx : Context}

/-- A negated occurrence makes a predicate inadmissible. -/
lemma inliningAllowed_of_negOcc {st : Inliner} {p : Pred} (h : p ∈ st.predsWithNegOccurrence) :
    st.inliningAllowed ctx p = false := by
  simp [inliningAllowed, h]

@[simp] lemma countRule_negOcc (st : Inliner) (r : Rule) :
    (st.countRule r).predsWithNegOccurrence =
      (r.neg.map Atom.pred).foldl (fun s p => s.insert p) st.predsWithNegOccurrence := rfl

/-- Counting rules records exactly their negated tail predicates. -/
lemma mem_negOcc_foldl_countRule {p : Pred} :
    ∀ (orig : RuleSet) (st : Inliner), p ∈ (orig.foldl countRule st).predsWithNegOccurrence ↔
      p ∈ st.predsWithNegOccurrence ∨ ∃ r ∈ orig, ∃ a ∈ r.neg, a.pred = p
  | [], st => by simp
  | r :: orig, st => by
    rw [List.foldl_cons, mem_negOcc_foldl_countRule orig, countRule_negOcc, mem_foldl_insert]
    simp only [List.mem_map, List.mem_cons, or_and_right, exists_or, exists_eq_left, or_assoc]

@[simp] lemma inlinedRules_foldl_countRule :
    ∀ (orig : RuleSet) (st : Inliner), (orig.foldl countRule st).inlinedRules = st.inlinedRules
  | [], _ => rfl
  | r :: orig, st => inlinedRules_foldl_countRule orig (st.countRule r)

@[simp] lemma cv_foldl_countRule :
    ∀ (orig : RuleSet) (st : Inliner), (orig.foldl countRule st).cv = st.cv
  | [], _ => rfl
  | r :: orig, st => cv_foldl_countRule orig (st.countRule r)

/-- `count_pred_occurrences` records every negated tail predicate of the rules it counts. -/
lemma mem_negOcc_countPredOccurrences {st : Inliner} {orig : RuleSet} {r : Rule} {a : Atom}
    (hr : r ∈ orig) (ha : a ∈ r.neg) :
    a.pred ∈ (st.countPredOccurrences ctx orig).predsWithNegOccurrence :=
  (mem_negOcc_foldl_countRule orig _).mpr (.inr ⟨r, hr, a, ha, rfl⟩)

@[simp] lemma inlinedRules_countPredOccurrences (st : Inliner) (orig : RuleSet) :
    (st.countPredOccurrences ctx orig).inlinedRules = st.inlinedRules :=
  inlinedRules_foldl_countRule orig _

@[simp] lemma cv_countPredOccurrences (st : Inliner) (orig : RuleSet) :
    (st.countPredOccurrences ctx orig).cv = st.cv :=
  cv_foldl_countRule orig _

/-- What the analyses after counting may change: `m_forbidden_preds` by growing, and
`m_head_pred_ctr` by promotion, which never lowers a count. -/
structure Frame (st st' : Inliner) : Prop where
  tail : st'.tailPredCtr = st.tailPredCtr
  negOcc : st'.predsWithNegOccurrence = st.predsWithNegOccurrence
  facts : st'.predsWithFacts = st.predsWithFacts
  inlined : st'.inlinedRules = st.inlinedRules
  cv : st'.cv = st.cv
  forbidden : st.forbiddenPreds ⊆ st'.forbiddenPreds
  head : ∀ p, st.headPredCtr p ≤ st'.headPredCtr p

@[refl] lemma Frame.rfl' (st : Inliner) : Frame st st :=
  ⟨rfl, rfl, rfl, rfl, rfl, List.Subset.refl _, fun _ => le_rfl⟩

lemma Frame.trans {st₁ st₂ st₃ : Inliner} (h₁ : Frame st₁ st₂) (h₂ : Frame st₂ st₃) :
    Frame st₁ st₃ :=
  ⟨h₂.1.trans h₁.1, h₂.2.trans h₁.2, h₂.3.trans h₁.3, h₂.4.trans h₁.4, h₂.5.trans h₁.5,
    h₁.6.trans h₂.6, fun p => (h₁.7 p).trans (h₂.7 p)⟩

lemma frame_forbid (st : Inliner) (p : Pred) : Frame st (st.forbid p) :=
  ⟨rfl, rfl, rfl, rfl, rfl, fun _ h => List.mem_insert_of_mem h, fun _ => le_rfl⟩

/-- A left fold whose every step stays in the frame does. -/
lemma frame_foldl {α β : Type} (g : β → Inliner) (f : β → α → β)
    (hf : ∀ b a, Frame (g b) (g (f b a))) : ∀ (l : List α) (b : β), Frame (g b) (g (l.foldl f b))
  | [], _ => Frame.rfl' _
  | a :: l, b => (hf b a).trans (frame_foldl g f hf l (f b a))

lemma frame_cycleStep (acc : Inliner × Bool) : ∀ g, Frame acc.1 (cycleStep acc g).1
  | _ :: _ :: _ => frame_forbid _ _
  | [] | [_] => Frame.rfl' _

lemma frame_forbidPredsFromCycles (st : Inliner) (X : RuleSet) :
    Frame st (st.forbidPredsFromCycles X).1 :=
  frame_foldl Prod.fst cycleStep frame_cycleStep X.strats (st, false)

lemma frame_headScanAtom (headPred : Pred) (multi : Bool) (s : HeadScan) (a : Atom) :
    Frame s.st (headScanAtom ctx headPred multi s a).st := by
  dsimp only [headScanAtom]
  split_ifs
  · exact Frame.rfl' _
  · exact frame_forbid _ _
  · exact frame_forbid _ _
  · -- promotion multiplies the head's count by a count above one
    refine ⟨rfl, rfl, rfl, rfl, rfl, List.Subset.refl _, fun p => ?_⟩
    simp only [Counter.set]
    split_ifs with hp
    · subst hp; exact Nat.le_mul_of_pos_right _ (by simp_all; omega)
    · exact le_rfl

lemma frame_headScanStratum (X : RuleSet) (acc : Inliner × Bool) (g : List Pred) :
    Frame acc.1 (headScanStratum ctx X acc g).1 := by
  cases g with
  | nil => exact Frame.rfl' _
  | cons p _ =>
    dsimp only [headScanStratum]
    exact frame_foldl HeadScan.st _
      (fun s (r : Rule) => frame_foldl HeadScan.st _ (frame_headScanAtom p _) r.pos s) _
      ⟨acc.1, acc.1.headPredCtr p > 1, false, acc.2⟩

lemma frame_tailScanRule (acc : Inliner × Bool) (r : Rule) :
    Frame acc.1 (tailScanRule ctx acc r).1 := by
  dsimp only [tailScanRule]
  split_ifs
  · exact Frame.rfl' _
  · refine frame_foldl TailScan.st (tailScanAtom ctx) (fun s a => ?_) r.pos ⟨acc.1, false, acc.2⟩
    dsimp only [tailScanAtom]
    split_ifs
    · exact Frame.rfl' _
    · exact frame_forbid _ _
    · exact Frame.rfl' _

lemma frame_forbidMultipleMultipliers (st : Inliner) (orig proposed : RuleSet) :
    Frame st (st.forbidMultipleMultipliers ctx orig proposed).1 := by
  unfold forbidMultipleMultipliers
  exact (frame_foldl Prod.fst _ (frame_headScanStratum proposed) proposed.strats (st, false)).trans
    (frame_foldl Prod.fst (tailScanRule ctx) frame_tailScanRule orig _)

lemma frame_cycleLoop {orig cand cand' : RuleSet} :
    ∀ {n : Nat} {st st' : Inliner}, cycleLoop ctx orig n st cand = .ok (st', cand') →
      Frame st st'
  | 0, _, _, h => by cases h
  | n + 1, st, st', h => by
    unfold cycleLoop at h
    dsimp only at h
    split_ifs at h
    · split at h
      · cases h
      · exact (frame_forbidPredsFromCycles st cand).trans (frame_cycleLoop h)
    · cases h
      exact frame_forbidPredsFromCycles st cand

/-- What a successful run of the analyses consists of. -/
lemma planCandidates_inv {fuel : Nat} {st st' : Inliner} {orig cand : RuleSet}
    (h : st.planCandidates ctx fuel orig = .ok (st', cand)) :
    ∃ c₁ st₂ c₂, (st.countPredOccurrences ctx orig).createAllowedRuleSet ctx orig = .ok c₁ ∧
      cycleLoop ctx orig fuel (st.countPredOccurrences ctx orig) c₁ = .ok (st₂, c₂) ∧
      st' = (st₂.forbidMultipleMultipliers ctx orig c₂).1 ∧
      (if (st₂.forbidMultipleMultipliers ctx orig c₂).2 then st'.createAllowedRuleSet ctx orig
        else .ok c₂) = .ok cand := by
  unfold planCandidates at h
  obtain ⟨c₁, h₁, h⟩ := except_bind_eq_ok h
  obtain ⟨⟨st₂, c₂⟩, h₂, h⟩ := except_bind_eq_ok h
  refine ⟨c₁, st₂, c₂, h₁, h₂, ?_⟩
  rcases hf : st₂.forbidMultipleMultipliers ctx orig c₂ with ⟨st₃, _ | _⟩ <;>
    simp only [hf] at h ⊢
  · cases h; exact ⟨rfl, rfl⟩
  · obtain ⟨c₃, h₃, h⟩ := except_bind_eq_ok h
    cases h; exact ⟨rfl, h₃⟩

/-- The state `plan_inlining` fills from is the counted state, up to the frame. -/
lemma frame_planCandidates {fuel : Nat} {st st' : Inliner} {orig cand : RuleSet}
    (h : st.planCandidates ctx fuel orig = .ok (st', cand)) :
    Frame (st.countPredOccurrences ctx orig) st' := by
  obtain ⟨_, _, _, -, h₂, rfl, -⟩ := planCandidates_inv h
  exact (frame_cycleLoop h₂).trans (frame_forbidMultipleMultipliers _ _ _)

/-- `create_allowed_rule_set` keeps rules of the input. -/
lemma mem_of_createAllowedRuleSet {st : Inliner} {orig cand : RuleSet}
    (h : st.createAllowedRuleSet ctx orig = .ok cand) {r : Rule} (hr : r ∈ cand) : r ∈ orig := by
  unfold createAllowedRuleSet at h
  dsimp only at h
  split_ifs at h
  cases h
  exact (List.mem_filter.mp hr).1

lemma mem_of_cycleLoop {orig cand cand' : RuleSet} (hc : ∀ r ∈ cand, r ∈ orig) :
    ∀ {n : Nat} {st st' : Inliner}, cycleLoop ctx orig n st cand = .ok (st', cand') →
      ∀ r ∈ cand', r ∈ orig
  | 0, _, _, h => by cases h
  | n + 1, st, st', h => by
    unfold cycleLoop at h
    dsimp only at h
    split_ifs at h
    · split at h
      · cases h
      · exact mem_of_cycleLoop (fun r hr => mem_of_createAllowedRuleSet ‹_› hr) h
    · cases h
      exact hc

/-- The candidate set the filling loop walks is made of input rules. -/
lemma mem_of_planCandidates {fuel : Nat} {st st' : Inliner} {orig cand : RuleSet}
    (h : st.planCandidates ctx fuel orig = .ok (st', cand)) {r : Rule} (hr : r ∈ cand) :
    r ∈ orig := by
  obtain ⟨c₁, st₂, c₂, h₁, h₂, -, h₃⟩ := planCandidates_inv h
  have hc₂ := mem_of_cycleLoop (fun r hr => mem_of_createAllowedRuleSet h₁ hr) h₂
  split_ifs at h₃
  · exact mem_of_createAllowedRuleSet h₃ hr
  · cases h₃; exact hc₂ r hr

/-- More fuel does not change a finished cycle-breaking loop. -/
lemma cycleLoop_add {orig cand : RuleSet} {r : Inliner × RuleSet} (k : Nat) :
    ∀ {n : Nat} {st : Inliner}, cycleLoop ctx orig n st cand = .ok r →
      cycleLoop ctx orig (n + k) st cand = .ok r
  | 0, _, h => by cases h
  | n + 1, st, h => by
    rw [Nat.add_right_comm]
    unfold cycleLoop at h ⊢
    dsimp only at h ⊢
    split_ifs at h ⊢
    · split at h
      · cases h
      · exact cycleLoop_add k h
    · exact h

lemma planCandidates_add {fuel : Nat} {st : Inliner} {orig : RuleSet} {r : Inliner × RuleSet}
    (k : Nat) (h : st.planCandidates ctx fuel orig = .ok r) :
    st.planCandidates ctx (fuel + k) orig = .ok r := by
  unfold planCandidates at h ⊢
  obtain ⟨c₁, h₁, h⟩ := except_bind_eq_ok h
  obtain ⟨p, h₂, h⟩ := except_bind_eq_ok h
  dsimp only
  rw [h₁, except_ok_bind, cycleLoop_add k h₂, except_ok_bind]
  exact h

end Inliner

end RuleInliner
