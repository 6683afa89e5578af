import RuleInliner.Close
import RuleInliner.Planner.Multipliers

/-!
# The cycle breaker leaves strata of one predicate

`plan_inlining` rebuilds the admissible sub-rule-set until `forbid_preds_from_cycles` finds no
stratum of two or more predicates; then `forbid_multiple_multipliers` and the filling loop
assert (`SASSERT(stratum->size()==1)`) that every stratum they walk holds one predicate.

A stratum of two or more predicates of the admissible set lies on a cycle of its dependency
graph, so each of its predicates heads a rule of the set and is admissible; the pass that meets
it forbids its first predicate (`forbidPredsFromCycles_true`). A pass that goes on therefore
removes an admissible predicate of the input, and it needs two of them to find a cycle, so the
loop stops after at most as many tests as the input has predicates (`cycleLoop_ok`).
Forbidding and promotion only shrink the admissible set, so afterwards the positive dependency
graph between admissible predicates has no cycle through two predicates, and every admissible
sub-rule-set built later keeps strata of one predicate (`planCandidates_singleton_strata`).
-/

namespace RuleInliner

namespace Inliner

variable {ctx : Context} {S : RuleSet}

/-- The predicates of `S` that `inlining_allowed` accepts. -/
def admissiblePreds (ctx : Context) (st : Inliner) (S : RuleSet) : List Pred :=
  S.preds.filter (st.inliningAllowed ctx)

/-- An edge of the positive dependency graph of `S` between two predicates that
`inlining_allowed` accepts. -/
def AdmEdge (ctx : Context) (st : Inliner) (S : RuleSet) (p q : Pred) : Prop :=
  st.inliningAllowed ctx p = true ∧ st.inliningAllowed ctx q = true ∧
    ∃ r ∈ S, r.decl = p ∧ ∃ a ∈ r.pos, a.pred = q

/-! ## One pass of `forbid_preds_from_cycles` -/

/-- A pass over strata of at most one predicate changes nothing. -/
lemma foldl_cycleStep_of_length_le_one :
    ∀ {L : List (List Pred)}, (∀ g ∈ L, g.length ≤ 1) → ∀ acc, L.foldl cycleStep acc = acc
  | [], _, _ => rfl
  | g :: L, h, acc => by
    have hg : cycleStep acc g = acc := by
      match g, h g (List.mem_cons_self _ _) with
      | [], _ => rfl
      | [_], _ => rfl
    rw [List.foldl_cons, hg]
    exact foldl_cycleStep_of_length_le_one (fun g hg => h g (List.mem_cons_of_mem _ hg)) acc

/-- The first predicate of every stratum of two or more is forbidden by the end of a pass. -/
lemma mem_forbidden_foldl_cycleStep {p q : Pred} {t : List Pred} :
    ∀ {L : List (List Pred)}, p :: q :: t ∈ L → ∀ acc,
      p ∈ (L.foldl cycleStep acc).1.forbiddenPreds
  | g :: L, hg, acc => by
    rw [List.foldl_cons]
    rcases List.mem_cons.mp hg with rfl | hg
    · exact (frame_foldl Prod.fst cycleStep frame_cycleStep L _).forbidden (List.mem_insert_self p _)
    · exact mem_forbidden_foldl_cycleStep hg _

/-- A pass over the admissible rules of `S` that reports a cycle met two admissible predicates
of `S` in one stratum, and forbade one of them. -/
lemma forbidPredsFromCycles_true {st st₁ : Inliner}
    (h : st.forbidPredsFromCycles (S.filter fun r => st.inliningAllowed ctx r.decl) = (st₁, true)) :
    ∃ p q, p ≠ q ∧ p ∈ admissiblePreds ctx st S ∧ q ∈ admissiblePreds ctx st S ∧
      st₁.inliningAllowed ctx p = false := by
  set X : RuleSet := S.filter fun r => st.inliningAllowed ctx r.decl
  obtain ⟨g, hg, hlen⟩ : ∃ g ∈ X.strats, ¬g.length ≤ 1 := by
    by_contra hne
    push_neg at hne
    rw [forbidPredsFromCycles, foldl_cycleStep_of_length_le_one hne] at h
    cases h
  obtain ⟨p, q, t, rfl⟩ : ∃ p q t, g = p :: q :: t := by
    match g, hlen with
    | p :: q :: t, _ => exact ⟨p, q, t, rfl⟩
    | [], h | [_], h => exact absurd (by simp) h
  have hnd : (p :: q :: t).Nodup := by
    obtain ⟨x, -, hx⟩ := RuleSet.mem_strats.mp hg
    exact hx ▸ (List.nodup_dedup _).filter _
  have hpq : p ≠ q := fun e => (List.nodup_cons.mp hnd).1 (e ▸ List.mem_cons_self _ _)
  have hq : q ∈ X.stratumOf p :=
    RuleSet.eq_stratumOf hg (List.mem_cons_self _ _) ▸ List.mem_cons_of_mem _ (List.mem_cons_self _ _)
  obtain ⟨h₁, h₂⟩ := (RuleSet.sameStratum_iff.mp (RuleSet.mem_stratumOf.mp hq).2).resolve_left hpq
  -- a predicate on a cycle heads a rule of the admissible set
  have hadm : ∀ {x y}, Relation.TransGen X.Dep x y → x ∈ admissiblePreds ctx st S := by
    intro x y hxy
    obtain ⟨_, ⟨r, hr, rfl, -⟩, -⟩ := Relation.TransGen.head'_iff.mp hxy
    obtain ⟨hrS, hra⟩ := List.mem_filter.mp hr
    exact List.mem_filter.mpr ⟨RuleSet.decl_mem_preds hrS, hra⟩
  have hforb : p ∈ st₁.forbiddenPreds := by
    have hm := mem_forbidden_foldl_cycleStep hg (st, false)
    rwa [← forbidPredsFromCycles, h] at hm
  refine ⟨p, q, hpq, hadm h₁, hadm h₂, ?_⟩
  by_contra hne
  exact not_mem_forbidden (by simpa using hne) hforb

/-- A pass that reports a cycle leaves fewer admissible predicates of `S`, out of at least two. -/
lemma admissiblePreds_length_lt {st st₁ : Inliner}
    (h : st.forbidPredsFromCycles (S.filter fun r => st.inliningAllowed ctx r.decl) = (st₁, true)) :
    2 ≤ (admissiblePreds ctx st S).length ∧
      (admissiblePreds ctx st₁ S).length < (admissiblePreds ctx st S).length := by
  obtain ⟨p, q, hpq, hp, hq, hp₁⟩ := forbidPredsFromCycles_true h
  have hframe : Frame st st₁ := by
    simpa [h] using frame_forbidPredsFromCycles st (S.filter fun r => st.inliningAllowed ctx r.decl)
  have hsub : admissiblePreds ctx st₁ S =
      (admissiblePreds ctx st S).filter (st₁.inliningAllowed ctx) := by
    simp only [admissiblePreds, List.filter_filter]
    refine List.filter_congr fun x _ => ?_
    cases h₁ : st₁.inliningAllowed ctx x
    · rfl
    · simp [hframe.allowed h₁]
  constructor
  · have h2 : List.Subperm [p, q] (admissiblePreds ctx st S) :=
      List.subperm_of_subset (by simp [hpq]) (by simp [List.subset_def, hp, hq])
    simpa using h2.length_le
  · rw [hsub]
    exact List.length_filter_lt_length_iff_exists.mpr ⟨p, hp, by simp [hp₁]⟩

/-! ## The loop -/

/-- On an input without negation cycles, the cycle-breaking loop finishes within `max 1 n`
tests, `n` the number of admissible predicates of the input, and leaves the admissible rules of
the input. -/
lemma cycleLoop_ok (hS : NegCycleFree S) :
    ∀ (fuel : Nat) (st : Inliner), max 1 (admissiblePreds ctx st S).length ≤ fuel →
      ∃ st', cycleLoop ctx S fuel st (S.filter fun r => st.inliningAllowed ctx r.decl) =
        .ok (st', S.filter fun r => st'.inliningAllowed ctx r.decl)
  | 0, _, h => absurd h (by omega)
  | fuel + 1, st, h => by
    rcases hf : st.forbidPredsFromCycles (S.filter fun r => st.inliningAllowed ctx r.decl) with
      ⟨st₁, _ | _⟩
    · -- no stratum of two or more: the pass changed nothing
      have hst : (st₁, false) = (st, false) := by
        unfold forbidPredsFromCycles at hf
        rw [← hf]
        exact (foldl_cycleStep_of_false _ _ (by rw [hf])).1
      cases hst
      exact ⟨st, by simp [cycleLoop, hf]⟩
    · obtain ⟨h2, hlt⟩ := admissiblePreds_length_lt hf
      obtain ⟨st', hst'⟩ := cycleLoop_ok hS fuel st₁ (by omega)
      exact ⟨st', by simp [cycleLoop, hf, createAllowedRuleSet_ok _ hS, hst']⟩

/-- The positive dependency edges between admissible predicates are dependency edges of the
admissible sub-rule-set. -/
lemma dep_of_admEdge {st : Inliner} {p q : Pred} (h : AdmEdge ctx st S p q) :
    RuleSet.Dep (S.filter fun r => st.inliningAllowed ctx r.decl) p q := by
  obtain ⟨hp, -, r, hr, rfl, a, ha, rfl⟩ := h
  exact ⟨r, List.mem_filter.mpr ⟨hr, hp⟩, rfl, List.mem_map_of_mem _ (List.mem_append_left _ ha)⟩

/-- When the admissible sub-rule-set has strata of one predicate, no cycle of admissible
predicates passes through two of them. -/
lemma eq_of_admEdge_cycle {st : Inliner}
    (hsingle : ∀ g ∈ RuleSet.strats (S.filter fun r => st.inliningAllowed ctx r.decl), g.length ≤ 1)
    {p q : Pred} (h₁ : Relation.TransGen (AdmEdge ctx st S) p q)
    (h₂ : Relation.TransGen (AdmEdge ctx st S) q p) : p = q :=
  RuleSet.eq_of_transGen_of_strats hsingle (h₁.mono fun _ _ => dep_of_admEdge)
    (h₂.mono fun _ _ => dep_of_admEdge)

/-- Rules of predicates admissible after forbidding and promotion were admissible before. -/
lemma filter_subset_of_frame {st st' : Inliner} (h : Frame st st') :
    ∀ r ∈ S.filter (fun r => st'.inliningAllowed ctx r.decl),
      r ∈ S.filter fun r => st.inliningAllowed ctx r.decl := fun _ hr =>
  List.mem_filter.mpr ⟨(List.mem_filter.mp hr).1, h.allowed (List.mem_filter.mp hr).2⟩

/-- The candidate set a successful run of the analyses hands to the filling loop, rebuilt or
not, has strata of at most one predicate. -/
lemma strats_planCandidates {fuel : Nat} {st₀ st : Inliner} {cand : RuleSet}
    (h : st₀.planCandidates ctx fuel S = .ok (st, cand)) : ∀ g ∈ cand.strats, g.length ≤ 1 := by
  obtain ⟨c₁, st₂, c₂, h₁, h₂, rfl, h₃⟩ := planCandidates_inv h
  obtain ⟨hc₂, hsingle⟩ := cycleLoop_spec (eq_filter_of_createAllowedRuleSet h₁) h₂
  split_ifs at h₃
  · rw [eq_filter_of_createAllowedRuleSet h₃]
    rw [hc₂] at hsingle
    exact RuleSet.strats_length_le_one_of_subset
      (filter_subset_of_frame (frame_forbidMultipleMultipliers st₂ S c₂)) hsingle
  · cases h₃
    exact hsingle

end Inliner

open Inliner in
/-- On every closed input, and from every state of the object, the loop
`while (forbid_preds_from_cycles(*candidate_inlined_set))` stops after at most as many tests as
the input has predicates (one test when it has none), with the same result for every larger
budget. From then on the positive dependency graph between admissible predicates has no cycle
through two distinct predicates: neither right after the loop nor after
`forbid_multiple_multipliers`. Every stratum of the candidate set `forbid_multiple_multipliers`
walks, and of the one the filling loop walks (rebuilt or not), holds exactly one predicate. -/
theorem planCandidates_singleton_strata {ctx : Context} {S : RuleSet} (hS : S.close = true)
    (st : Inliner) :
    ∃ st₂ c₂ st' cand,
      (∀ fuel, max 1 S.preds.length ≤ fuel →
        cycleLoop ctx S fuel (st.countPredOccurrences ctx S)
            (S.filter fun r => (st.countPredOccurrences ctx S).inliningAllowed ctx r.decl) =
          .ok (st₂, c₂) ∧
        st.planCandidates ctx fuel S = .ok (st', cand)) ∧
      st' = (st₂.forbidMultipleMultipliers ctx S c₂).1 ∧
      (∀ g ∈ c₂.strats, g.length = 1) ∧ (∀ g ∈ cand.strats, g.length = 1) ∧
      (∀ p q, Relation.TransGen (AdmEdge ctx st₂ S) p q →
        Relation.TransGen (AdmEdge ctx st₂ S) q p → p = q) ∧
      ∀ p q, Relation.TransGen (AdmEdge ctx st' S) p q →
        Relation.TransGen (AdmEdge ctx st' S) q p → p = q := by
  have hR := close_iff.mp hS
  have hle := List.length_filter_le ((st.countPredOccurrences ctx S).inliningAllowed ctx) S.preds
  obtain ⟨st₂, hloop⟩ := @cycleLoop_ok ctx S hR (max 1 S.preds.length) (st.countPredOccurrences ctx S)
    (by simp only [admissiblePreds]; omega)
  have hsingle₂ := (cycleLoop_spec rfl hloop).2
  obtain ⟨st', b, hfm⟩ : ∃ st' b,
      st₂.forbidMultipleMultipliers ctx S (S.filter fun r => st₂.inliningAllowed ctx r.decl) =
        (st', b) := ⟨_, _, rfl⟩
  have hframe : Frame st₂ st' := by
    simpa [hfm] using @frame_forbidMultipleMultipliers ctx st₂ S
      (S.filter fun r => st₂.inliningAllowed ctx r.decl)
  have hsingle' := RuleSet.strats_length_le_one_of_subset (filter_subset_of_frame hframe) hsingle₂
  have hone : ∀ {X : RuleSet}, (∀ g ∈ X.strats, g.length ≤ 1) → ∀ g ∈ X.strats, g.length = 1 :=
    fun h g hg => le_antisymm (h g hg) (RuleSet.length_pos_of_mem_strats hg)
  refine ⟨st₂, _, st', if b then S.filter fun r => st'.inliningAllowed ctx r.decl
    else S.filter fun r => st₂.inliningAllowed ctx r.decl, fun fuel hfuel => ?_, by rw [hfm],
    hone hsingle₂, ?_, fun p q => eq_of_admEdge_cycle hsingle₂,
    fun p q => eq_of_admEdge_cycle hsingle'⟩
  · obtain ⟨k, rfl⟩ : ∃ k, fuel = max 1 S.preds.length + k := ⟨fuel - max 1 S.preds.length, by omega⟩
    have hloop' := cycleLoop_add k hloop
    refine ⟨hloop', ?_⟩
    cases b <;> simp [planCandidates, createAllowedRuleSet_ok _ hR, hloop', hfm, pure, Except.pure]
  · cases b
    · exact hone hsingle₂
    · exact hone hsingle'

/-- `Out(x) :- P(x)`, `P(x) :- Q(x)`, `Q(x) :- P(x)`, `Q(x) :- B(x)`: a cycle of two predicates
that are admissible until the cycle breaker forbids one. -/
def twoCycleRules : RuleSet :=
  [⟨⟨⟨0, 1⟩, [.var 0]⟩, [⟨⟨1, 1⟩, [.var 0]⟩], [], []⟩,
   ⟨⟨⟨1, 1⟩, [.var 0]⟩, [⟨⟨2, 1⟩, [.var 0]⟩], [], []⟩,
   ⟨⟨⟨2, 1⟩, [.var 0]⟩, [⟨⟨1, 1⟩, [.var 0]⟩], [], []⟩,
   ⟨⟨⟨2, 1⟩, [.var 0]⟩, [⟨⟨3, 1⟩, [.var 0]⟩], [], []⟩]

/-- The cycle of `P` and `Q`, with `Out` the output and facts for `B`. -/
theorem planCandidates_singleton_strata_twoCycle :
    let ctx := Context.reference [⟨0, 1⟩] [⟨3, 1⟩] ⟨[]⟩
    twoCycleRules.close = true ∧
    ∃ st₂ c₂ st' cand,
      (∀ fuel, max 1 twoCycleRules.preds.length ≤ fuel →
        Inliner.cycleLoop ctx twoCycleRules fuel (Inliner.init.countPredOccurrences ctx twoCycleRules)
            (twoCycleRules.filter fun r =>
              (Inliner.init.countPredOccurrences ctx twoCycleRules).inliningAllowed ctx r.decl) =
          .ok (st₂, c₂) ∧
        Inliner.init.planCandidates ctx fuel twoCycleRules = .ok (st', cand)) ∧
      st' = (st₂.forbidMultipleMultipliers ctx twoCycleRules c₂).1 ∧
      (∀ g ∈ c₂.strats, g.length = 1) ∧ (∀ g ∈ cand.strats, g.length = 1) ∧
      (∀ p q, Relation.TransGen (Inliner.AdmEdge ctx st₂ twoCycleRules) p q →
        Relation.TransGen (Inliner.AdmEdge ctx st₂ twoCycleRules) q p → p = q) ∧
      ∀ p q, Relation.TransGen (Inliner.AdmEdge ctx st' twoCycleRules) p q →
        Relation.TransGen (Inliner.AdmEdge ctx st' twoCycleRules) q p → p = q :=
  ⟨rfl, @planCandidates_singleton_strata _ twoCycleRules rfl Inliner.init⟩

end RuleInliner
