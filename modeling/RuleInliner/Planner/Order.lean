import RuleInliner.Planner.Cycles
import RuleInliner.Reuse

/-!
# The filling loop walks callees before callers

`plan_inlining` builds its candidate set from `inlining_allowed` before the last counter updates
of `forbid_multiple_multipliers`, while `transform_rule` evaluates `inlining_allowed` live when
it looks up `m_inlined_rules`. The two agree because counting only adds to the counters and
predicate sets (`Grows`), and afterwards the analyses only forbid predicates and promote head
counters (`frame_planCandidates`): the admissible set only shrinks, so every predicate
admissible at the end was admissible when a candidate set was built, and all its input rules
are candidates (`predicateRules_planCandidates`), rebuilt or not. The filling loop itself does
not touch the counters.

`fillOrder` is the sequence of rules the filling loop hands to `transform_rule`
(`fill_eq_foldlM_fillOrder`). As the strata of the candidate set hold one predicate each
(`strats_planCandidates`), it holds every candidate rule (`mem_fillOrder`), and the rules of a
predicate called by another come before every rule of the caller (`fillOrder_split`); together
this is `fillOrder_respects_calls`.
-/

namespace RuleInliner

namespace Inliner

variable {ctx : Context}

/-- The rules the filling loop hands to `transform_rule` for one stratum: those of its
predicate (`SASSERT(stratum->size()==1)`). -/
def stratumRules (cand : RuleSet) : List Pred → List Rule
  | [] => []
  | p :: _ => cand.predicateRules p

/-- The rules the filling loop of `plan_inlining` hands to `transform_rule`, in order. -/
def fillOrder (cand : RuleSet) : List Rule := cand.strats.flatMap (stratumRules cand)

lemma mem_stratumRules {cand : RuleSet} {g : List Pred} {r : Rule} (h : r ∈ stratumRules cand g) :
    r ∈ cand ∧ r.decl ∈ g := by
  match g, h with
  | p :: _, h =>
    obtain ⟨hr, hp⟩ := List.mem_filter.mp h
    exact ⟨hr, of_decide_eq_true hp ▸ List.mem_cons_self _ _⟩

lemma foldlM_fillStratum (fuel : Nat) (cand : RuleSet) :
    ∀ (L : List (List Pred)) (st : Inliner), L.foldlM (fillStratum ctx fuel cand) st =
      (L.flatMap (stratumRules cand)).foldlM (fillRule ctx fuel) st
  | [], _ => rfl
  | [] :: L, st => foldlM_fillStratum fuel cand L st
  | (p :: _) :: L, st => by
    simp only [List.flatMap_cons, List.foldlM_append, List.foldlM_cons, fillStratum, stratumRules,
      foldlM_fillStratum fuel cand L]

/-- The filling loop is one fold of `fillRule` over `fillOrder`. -/
lemma fill_eq_foldlM_fillOrder (fuel : Nat) (cand : RuleSet) (st : Inliner) :
    fill ctx fuel cand st = (fillOrder cand).foldlM (fillRule ctx fuel) st :=
  foldlM_fillStratum fuel cand _ st

/-- The filling loop keeps what `inlining_allowed` answers. -/
lemma inliningAllowed_eq_of_fill {fuel : Nat} {cand : RuleSet} {st st' : Inliner}
    (h : fill ctx fuel cand st = .ok st') : st'.inliningAllowed ctx = st.inliningAllowed ctx :=
  fill_invariant (fun b => b.inliningAllowed ctx = st.inliningAllowed ctx)
    (fun _ _ _ hb _ h => by obtain ⟨_, _, _, -, rfl⟩ := fillRule_eq_ok h; exact hb) rfl h

variable {cand : RuleSet} (hsingle : ∀ g ∈ cand.strats, g.length ≤ 1)
include hsingle

/-- With strata of one predicate, the filling loop hands every candidate rule to
`transform_rule`. -/
lemma mem_fillOrder {r : Rule} (hr : r ∈ cand) : r ∈ fillOrder cand := by
  have hp := RuleSet.decl_mem_preds hr
  refine List.mem_flatMap.mpr ⟨_, RuleSet.mem_strats.mpr ⟨r.decl, hp, rfl⟩, ?_⟩
  rw [RuleSet.stratumOf_eq_singleton hsingle hp]
  exact List.mem_filter.mpr ⟨hr, decide_eq_true rfl⟩

/-- With strata of one predicate, when `p` depends on another predicate `q`, the filling loop
hands every rule of `q` to `transform_rule` before the first rule of `p`. -/
lemma fillOrder_split {p q : Pred} (hdep : cand.Dep p q) (hne : q ≠ p) :
    ∃ L₁ L₂, fillOrder cand = L₁ ++ L₂ ∧ (∀ r ∈ cand.predicateRules q, r ∈ L₁) ∧
      ∀ r ∈ L₁, r.decl ≠ p := by
  have hp := (RuleSet.mem_preds_of_dep hdep).1
  obtain ⟨pre, post, hs⟩ := List.append_of_mem (RuleSet.mem_strats.mpr ⟨p, hp, rfl⟩)
  refine ⟨pre.flatMap (stratumRules cand), (cand.stratumOf p :: post).flatMap (stratumRules cand),
    by rw [fillOrder, hs, List.flatMap_append], fun r hr => ?_, fun r hr hrp => ?_⟩
  · obtain ⟨hrc, hrq⟩ := List.mem_filter.mp hr
    have hq := of_decide_eq_true hrq ▸ RuleSet.decl_mem_preds hrc
    have hqS : cand.stratumOf q ∈ pre ++ cand.stratumOf p :: post :=
      hs ▸ RuleSet.mem_strats.mpr ⟨q, hq, rfl⟩
    have hq₁ := RuleSet.stratumOf_eq_singleton hsingle hq
    refine List.mem_flatMap.mpr ⟨cand.stratumOf q, ?_, by rw [hq₁]; exact hr⟩
    rcases List.mem_append.mp hqS with hpre | hpost
    · exact hpre
    rcases List.mem_cons.mp hpost with heq | hpost
    · exact absurd (List.mem_singleton.mp (hq₁ ▸ heq ▸ RuleSet.self_mem_stratumOf hp)) hne.symm
    · exact absurd (hq₁ ▸ List.mem_singleton_self q)
        (RuleSet.not_mem_of_dep hsingle hdep hne hs _ hpost)
  · obtain ⟨g, hg, hrg⟩ := List.mem_flatMap.mp hr
    exact RuleSet.not_mem_of_strats_eq hs (RuleSet.self_mem_stratumOf hp) g
      (List.mem_append_left _ hg) (hrp ▸ (mem_stratumRules hrg).2)

end Inliner

open Inliner in
/-- Within one run: counting only adds to the counters and predicate sets the object holds, and
after it the analyses only forbid predicates and raise head counters (`Frame`), so what
`inlining_allowed` accepts at the end of `plan_inlining`'s analyses it accepted after counting
and before; the filling loop changes none of it, so `transform_rules` sees the same set. The
filling loop hands `transform_rule` the rules of `fillOrder cand` in order. For every predicate
`p` accepted at the end, every input rule of `p` is among them, and for every other accepted `q`
that a rule of `p` calls positively, every input rule of `q` comes before every rule of `p`;
this holds whether or not `forbid_multiple_multipliers` forbade anything and the candidate set
was rebuilt. -/
theorem fillOrder_respects_calls {ctx : Context} {fuel₀ : Nat} {st₀ st : Inliner}
    {S cand : RuleSet} (hc : st₀.planCandidates ctx fuel₀ S = .ok (st, cand)) :
    Frame (st₀.countPredOccurrences ctx S) st ∧
    (∀ p, st.inliningAllowed ctx p = true →
      (st₀.countPredOccurrences ctx S).inliningAllowed ctx p = true ∧
        st₀.inliningAllowed ctx p = true) ∧
    (∀ fuel st', fill ctx fuel cand st = .ok st' → st'.inliningAllowed ctx = st.inliningAllowed ctx) ∧
    (∀ fuel, fill ctx fuel cand st = (fillOrder cand).foldlM (fillRule ctx fuel) st) ∧
    ∀ p, st.inliningAllowed ctx p = true →
      (∀ r ∈ S.predicateRules p, r ∈ fillOrder cand) ∧
      ∀ q, q ≠ p → st.inliningAllowed ctx q = true →
        (∃ r ∈ S.predicateRules p, ∃ a ∈ r.pos, a.pred = q) →
        ∃ L₁ L₂, fillOrder cand = L₁ ++ L₂ ∧ (∀ r ∈ S.predicateRules q, r ∈ L₁) ∧
          ∀ r ∈ L₁, r.decl ≠ p := by
  have hsingle := strats_planCandidates hc
  have hframe := frame_planCandidates hc
  refine ⟨hframe, fun p hp => ⟨hframe.allowed hp,
      (grows_countPredOccurrences ctx st₀ S).allowed (hframe.allowed hp)⟩,
    fun _ _ => inliningAllowed_eq_of_fill, fun fuel => fill_eq_foldlM_fillOrder fuel cand st,
    fun p hp => ⟨fun r hr => ?_, fun q hne hq ⟨r, hr, a, ha, haq⟩ => ?_⟩⟩
  · rw [← predicateRules_planCandidates hc hp] at hr
    exact mem_fillOrder hsingle (List.mem_filter.mp hr).1
  · rw [← predicateRules_planCandidates hc hp] at hr
    obtain ⟨hrc, hrp⟩ := List.mem_filter.mp hr
    have hdep : cand.Dep p q := ⟨r, hrc, of_decide_eq_true hrp,
      haq ▸ List.mem_map_of_mem _ (List.mem_append_left _ ha)⟩
    rw [← predicateRules_planCandidates hc hq]
    exact fillOrder_split hsingle hdep hne

/-- The chain `Out(x) :- P(x)`, `P(x) :- B(x)` with facts for `B`. -/
theorem fillOrder_respects_calls_chain :
    ∃ st cand, Inliner.init.planCandidates chainContext 2 chainRules = .ok (st, cand) ∧
      Inliner.Frame (Inliner.init.countPredOccurrences chainContext chainRules) st ∧
      (∀ p, st.inliningAllowed chainContext p = true →
        (Inliner.init.countPredOccurrences chainContext chainRules).inliningAllowed
            chainContext p = true ∧ Inliner.init.inliningAllowed chainContext p = true) ∧
      (∀ fuel st', Inliner.fill chainContext fuel cand st = .ok st' →
        st'.inliningAllowed chainContext = st.inliningAllowed chainContext) ∧
      (∀ fuel, Inliner.fill chainContext fuel cand st =
        (Inliner.fillOrder cand).foldlM (Inliner.fillRule chainContext fuel) st) ∧
      ∀ p, st.inliningAllowed chainContext p = true →
        (∀ r ∈ chainRules.predicateRules p, r ∈ Inliner.fillOrder cand) ∧
        ∀ q, q ≠ p → st.inliningAllowed chainContext q = true →
          (∃ r ∈ chainRules.predicateRules p, ∃ a ∈ r.pos, a.pred = q) →
          ∃ L₁ L₂, Inliner.fillOrder cand = L₁ ++ L₂ ∧
            (∀ r ∈ chainRules.predicateRules q, r ∈ L₁) ∧ ∀ r ∈ L₁, r.decl ≠ p :=
  ⟨_, _, rfl, @fillOrder_respects_calls chainContext 2 _ _ chainRules _ rfl⟩

end RuleInliner
