import RuleInliner.Sound
import RuleInliner.Finish
import RuleInliner.Planner.Order
import RuleInliner.Reference.Mgu

/-!
# Bulk inlining loses no atom

`Sound.lean` shows the pass derives nothing its input does not. This module shows the converse
for the bulk stage (`plan_inlining`, then `transform_rules`): on every predicate it keeps, the
output derives exactly what the input derives (`transformRules_complete`).

An admissible atom the input derives is read through `m_inlined_rules`: some rule of the lookup
set has an instance with that head whose body holds in what the output derives (`Realized`);
every other atom is read in the output itself (`Unfolded`). The proof is an induction on the
input's derivation (`unfolded_of_derives`):
* a fact lies over a predicate with facts, never admissible (`inliningAllowed_of_nonEmpty`);
* a rule with a non-admissible head is transformed by `transform_rules`, and the worklist of
  `transform_rule` loses no instance whose body is unfolded (`transformRuleLoop_complete`): a
  rule moved to the target keeps it, and a rule resolved at an admissible atom passes it on to
  the resolvent built with the rule that realises the atom (`tryToInlineRule_complete`);
* a rule of an admissible predicate that calls itself is the only rule of its predicate
  (`planCandidates_multipliers`), so nothing derives an atom of it (`not_derives_of_self_call`);
* any other rule of an admissible predicate was transformed into `m_inlined_rules` after every
  rule of the predicates it calls (`fillOrder_block`), so the rules realising its atoms were in
  the lookup set when its turn came (`realized_of_fill`).

This needs three contracts on the collaborators besides those of `Sound.lean`: `m_unif` finds a
most general unifier whenever one exists (`Context.UnifierComplete`, met by `mguUnif`), and
`fix_unbound_vars` and the simplifier introduce no quantifier (`Context.KeepsQuantifierFree`),
since `transform_rule` drops a quantified rule. The input must have no quantified constraint,
and the facts must lie over the predicates `collect_non_empty_predicates` reports.
-/

namespace RuleInliner

/-! ## The contracts -/

/-- Modelled from the spec: `m_unif` finds a unifier of two argument lists whose variables lie
below `n` whenever they have one, and every other factors through it. -/
def Context.UnifierComplete (ctx : Context) : Prop :=
  ∀ n as bs, (∀ t ∈ as ++ bs, ∀ v ∈ t.vars, v < n) → ∀ θ₁ θ₂ : Subst,
    as.map (Term.subst θ₁) = bs.map (Term.subst θ₂) →
    ∃ σ η, ctx.unif n as bs = some σ ∧ ∀ v < n, θ₁ v = (σ.1 v).subst η ∧ θ₂ v = (σ.2 v).subst η

/-- Modelled from the spec: `fix_unbound_vars` and the interpreted-tail simplifier introduce no
quantified constraint. -/
structure Context.KeepsQuantifierFree (ctx : Context) : Prop where
  closeUnbound : ∀ r : Rule, r.hasQuantifier = false →
    Rule.hasQuantifier { r with interp := ctx.closeUnbound r } = false
  simplify : ∀ (r : Rule) (s : Subst × List Constraint), r.hasQuantifier = false →
    ctx.simplify r = some s → Rule.hasQuantifier { r.subst s.1 with interp := s.2 } = false

lemma Context.reference_keepsQuantifierFree (outputs facts : List Pred) (params : Params.Obj) :
    (Context.reference outputs facts params).KeepsQuantifierFree where
  closeUnbound _ h := h
  simplify r s h hs := by
    cases hs
    simpa only [Rule.subst_var] using h

/-- A sound and complete `m_unif` is most general on every atom `unify_rules` hands it. -/
lemma Context.mostGeneral_of {ctx : Context} (hs : ctx.UnifierSound) (hc : ctx.UnifierComplete)
    {tgt src : Rule} {i : Nat} :
    ∀ a ∈ tgt.pos[i]?, ctx.MostGeneral (max tgt.maxVar src.maxVar + 1) a.args src.head.args := by
  intro a ha
  refine ⟨hs _ _ _, hc _ _ _ fun t ht v hv => Nat.lt_succ_of_le ?_⟩
  rcases List.mem_append.mp ht with ht | ht
  · have hv' : v ∈ tgt.vars := by
      simp only [Rule.vars, Atom.vars, List.mem_append, List.mem_flatMap]
      exact .inl (.inr ⟨a, .inl (List.getElem?_mem ha), t, ht, hv⟩)
    exact (Rule.le_maxVar hv').trans (le_max_left _ _)
  · have hv' : v ∈ src.vars := by
      simp only [Rule.vars, Atom.vars, List.mem_append, List.mem_flatMap]
      exact .inl (.inl ⟨t, ht, hv⟩)
    exact (Rule.le_maxVar hv').trans (le_max_right _ _)

/-! ## Quantifier-free resolvents -/

lemma Rule.hasQuantifier_eq_false {r : Rule} :
    r.hasQuantifier = false ↔ ∀ c ∈ r.interp, c.quantified = false := by
  simp [Rule.hasQuantifier]

@[simp] lemma Rule.hasQuantifier_subst (σ : Subst) (r : Rule) :
    (r.subst σ).hasQuantifier = r.hasQuantifier := by
  simp [Rule.hasQuantifier, Rule.subst, Function.comp_def]

@[simp] lemma TailElem.interp?_subst (σ : Subst) (e : TailElem) :
    (e.subst σ).interp? = e.interp?.map (Constraint.subst σ) := by
  rcases e with ⟨a, _ | _⟩ | c <;> rfl

lemma Rule.tail_filterMap_interp? (r : Rule) : r.tail.filterMap TailElem.interp? = r.interp := by
  simp [Rule.tail, List.filterMap_map, Function.comp_def, TailElem.interp?,
    List.filterMap_eq_nil_iff.mpr fun _ _ => rfl]

/-- The constraints of a resolvent are instances of the constraints of its two rules. -/
lemma resolvent_interp_sublist (σ : Subst × Subst) (tgt : Rule) (i : Nat) (src : Rule) :
    List.Sublist (resolvent σ tgt i src).interp
      (tgt.interp.map (Constraint.subst σ.1) ++ src.interp.map (Constraint.subst σ.2)) := by
  have h := (dedupFirst_sublist ((tgt.tail.eraseIdx i).map (TailElem.subst σ.1) ++
    src.tail.map (TailElem.subst σ.2))).filterMap TailElem.interp?
  simp only [List.filterMap_append, List.filterMap_map, Function.comp_def,
    TailElem.interp?_subst, ← List.map_filterMap, Rule.tail_filterMap_interp?] at h
  refine h.trans (List.Sublist.append ?_ (List.Sublist.refl _))
  rw [← Rule.tail_filterMap_interp? tgt]
  exact ((List.eraseIdx_sublist _ _).filterMap _).map _

lemma resolvent_hasQuantifier {σ : Subst × Subst} {tgt src : Rule} {i : Nat}
    (ht : tgt.hasQuantifier = false) (hs : src.hasQuantifier = false) :
    (resolvent σ tgt i src).hasQuantifier = false := by
  rw [Rule.hasQuantifier_eq_false] at ht hs ⊢
  intro c hc
  rcases List.mem_append.mp ((resolvent_interp_sublist σ tgt i src).subset hc) with h | h <;>
    obtain ⟨c', hc', rfl⟩ := List.mem_map.mp h
  · exact ht c' hc'
  · exact hs c' hc'

variable {T : Theory} {N M : Interp} {ctx : Context}

lemma applyUnifier_hasQuantifier (hqf : ctx.KeepsQuantifierFree) {σ : Subst × Subst}
    {tgt src res : Rule} {i : Nat} (ht : tgt.hasQuantifier = false)
    (hs : src.hasQuantifier = false) (h : applyUnifier ctx σ tgt i src = some res) :
    res.hasQuantifier = false := by
  simp only [applyUnifier, Option.map_eq_some'] at h
  obtain ⟨s, hs', rfl⟩ := h
  have h₀ : (resolvent σ tgt i src).normVars.hasQuantifier = false := by
    rw [Rule.normVars, Rule.hasQuantifier_subst]
    exact resolvent_hasQuantifier ht hs
  refine hqf.simplify _ s ?_ hs'
  split
  · exact hqf.closeUnbound _ h₀
  · exact h₀

/-! ## One resolution step -/

section Step

variable (hctx : ctx.PreservesMeaning T) (hsound : ctx.UnifierSound)
  (hcomp : ctx.UnifierComplete) (hqf : ctx.KeepsQuantifierFree)
include hctx hsound hcomp hqf

/-- Instances of a quantifier-free target and source that meet at atom `i`, with the rest of
both bodies holding, make `try_to_inline_rule` return a quantifier-free resolvent that has an
instance with the target instance's head and a body that holds. -/
lemma tryToInlineRule_complete (cv : Converters) {tgt src : Rule} {i : Nat} {ν₁ ν₂ : Subst}
    (htq : tgt.hasQuantifier = false) (hsq : src.hasQuantifier = false)
    (hatom : tgt.pos[i]?.map (Atom.subst ν₁) = some (src.head.subst ν₂))
    (ht : (tgt.erasePos i).Body T N M ν₁) (hs : src.Body T N M ν₂) :
    ∃ res, (tryToInlineRule ctx cv tgt src i).1 = some res ∧ res.hasQuantifier = false ∧
      ∃ μ, res.head.subst μ = tgt.head.subst ν₁ ∧ res.Body T N M μ := by
  obtain ⟨σ, hσ, η, hb, hh⟩ := resolve_of_instances (Context.mostGeneral_of hsound hcomp) hatom ht hs
  obtain ⟨res, hres⟩ := Option.ne_none_iff_exists'.mp (applyUnifier_ne_none hctx hb)
  obtain ⟨μ, hμ, hhμ⟩ := (applyUnifier_equiv hctx hres).2 N M η hb
  refine ⟨res, ?_, applyUnifier_hasQuantifier hqf (by rwa [Rule.normVars, Rule.hasQuantifier_subst])
    hsq hres, μ, hhμ.trans hh, hμ⟩
  rw [tryToInlineRule_fst, if_neg (by simp [hsq]), hσ, Option.some_bind, hres]

end Step

/-- The inner loop of `transform_rule` keeps every resolvent `try_to_inline_rule` returns. -/
lemma mem_inlineAll_of {r src res : Rule} {i : Nat} {cv₀ : Converters}
    (h : (tryToInlineRule ctx cv₀ r src i).1 = some res) :
    ∀ {cv : Converters} {srcs : List Rule}, src ∈ srcs → res ∈ (inlineAll ctx r i cv srcs).1
  | _, [], hs => absurd hs (List.not_mem_nil _)
  | cv, s :: srcs, hs => by
    simp only [inlineAll, List.mem_append]
    rcases List.mem_cons.mp hs with rfl | hs
    · left
      rw [tryToInlineRule_fst, ← tryToInlineRule_fst ctx cv₀, h]
      exact List.mem_singleton_self _
    · exact .inr (mem_inlineAll_of h hs)

/-! ## Reading atoms through the lookup set -/

section Reading

variable (T N) (E : Interp)

/-- `L` realises the atom `b`: a rule of `L` has an instance with head `b` whose body holds in
`E`. -/
def Realized (L : RuleSet) (b : Atom) : Prop :=
  ∃ c ∈ L, ∃ μ, c.head.subst μ = b ∧ c.Body T N E μ

/-- How bulk inlining reads an atom: over an admissible predicate, realised by the lookup set
`L`; over any other, in `E`. -/
def Unfolded (adm : Pred → Bool) (L : RuleSet) : Interp :=
  fun b => if adm b.pred then Realized T N E L b else E b

variable {T N E} {adm : Pred → Bool} {L : RuleSet} {b : Atom}

lemma Rule.decl_eq_of_subst_head {c : Rule} {μ : Subst} (h : c.head.subst μ = b) :
    c.decl = b.pred := by
  rw [← h]
  rfl

lemma unfolded_of_adm (h : adm b.pred = true) : Unfolded T N E adm L b ↔ Realized T N E L b := by
  simp [Unfolded, h]

lemma unfolded_of_not_adm (h : adm b.pred = false) : Unfolded T N E adm L b ↔ E b := by
  simp [Unfolded, h]

/-- On a rule without admissible positive atom, an unfolded body is a body in `E`. -/
lemma body_unfolded_iff {c : Rule} (hc : PosClean adm c) {μ : Subst} :
    c.Body T N (Unfolded T N E adm L) μ ↔ c.Body T N E μ :=
  and_congr_left' (forall₂_congr fun a ha => unfolded_of_not_adm (hc a ha))

/-- An atom realised by rules that all lie in `L'` is realised by `L'`. -/
lemma unfolded_mono {L' : RuleSet} (h : ∀ c ∈ L, c.decl = b.pred → adm b.pred = true → c ∈ L')
    (hb : Unfolded T N E adm L b) : Unfolded T N E adm L' b := by
  cases hadm : adm b.pred
  · exact (unfolded_of_not_adm hadm).mpr ((unfolded_of_not_adm hadm).mp hb)
  · obtain ⟨c, hc, μ, h₁, h₂⟩ := (unfolded_of_adm hadm).mp hb
    exact (unfolded_of_adm hadm).mpr ⟨c, h c hc (Rule.decl_eq_of_subst_head h₁) hadm, μ, h₁, h₂⟩

end Reading

/-! ## The worklist of `transform_rule` -/

section Loop

variable {E : Interp} {st : Inliner} {self : Bool} {L : RuleSet}
  (hctx : ctx.PreservesMeaning T) (hsound : ctx.UnifierSound)
  (hcomp : ctx.UnifierComplete) (hqf : ctx.KeepsQuantifierFree)
  (hL : ∀ c ∈ L, PosClean (st.inliningAllowed ctx) c ∧ c.hasQuantifier = false)
include hctx hsound hcomp hqf hL

/-- The worklist of `transform_rule` loses no instance. While every rule of `L` can be looked up,
each quantifier-free rule of the worklist with an instance whose body is unfolded through `L`
leaves, in the target, a rule with an instance that has the same head and a body that holds. -/
lemma transformRuleLoop_complete :
    ∀ {n todo tgt modified cv out}, transformRuleLoop ctx st self n todo tgt modified cv = .ok out →
      (∀ c ∈ L, c ∈ if self then tgt else st.inlinedRules) →
      ∀ t ∈ todo, t.hasQuantifier = false → ∀ ν,
        t.Body T N (Unfolded T N E (st.inliningAllowed ctx) L) ν →
        Realized T N E out.1 (t.head.subst ν)
  | 0, _, _, _, _, _, h, _ => by cases h
  | n + 1, [], _, _, _, _, _, _ => fun _ ht => absurd ht (List.not_mem_nil _)
  | n + 1, r :: todo, tgt, modified, cv, out, h, hlook => by
    intro t ht htq ν hb
    rcases @transformRuleLoop_cons_cases ctx st self r with
      ⟨hq, e⟩ | ⟨-, hclean, e⟩ | ⟨-, i, hi, hadm, e⟩ <;> rw [e] at h
    · -- a quantified rule is dropped, and `t` is another one
      rcases List.mem_cons.mp ht with rfl | ht
      · exact absurd (htq.symm.trans hq) Bool.false_ne_true
      · exact transformRuleLoop_complete h hlook t ht htq ν hb
    · -- a rule without admissible positive atom goes to the target
      have hlook' : ∀ c ∈ L, c ∈ if self then tgt ++ [r] else st.inlinedRules := fun c hc => by
        have := hlook c hc
        cases self
        · exact this
        · exact List.mem_append_left _ this
      rcases List.mem_cons.mp ht with rfl | ht
      · exact ⟨t, (transformRuleLoop_extends h).subset
          (List.mem_append_right _ (List.mem_singleton_self _)), ν, rfl,
          (body_unfolded_iff hclean).mp hb⟩
      · exact transformRuleLoop_complete h hlook' t ht htq ν hb
    · -- the rule is replaced by its resolvents at atom `i`
      rcases List.mem_cons.mp ht with rfl | ht
      · obtain ⟨hai, hbt⟩ := (Rule.body_iff_erasePos hi ν).mp hb
        obtain ⟨c, hcL, μ, hcμ, hcb⟩ := (unfolded_of_adm (b := t.pos[i].subst ν) hadm).mp hai
        have hsrc : c ∈ (if self then tgt else st.inlinedRules).predicateRules t.pos[i].pred :=
          List.mem_filter.mpr ⟨hlook c hcL,
            decide_eq_true (Rule.decl_eq_of_subst_head (b := t.pos[i].subst ν) hcμ)⟩
        obtain ⟨res, hres, hresq, μ', hμ'h, hμ'b⟩ := tryToInlineRule_complete hctx hsound hcomp
          hqf cv htq (hL c hcL).2 (by rw [List.getElem?_eq_getElem hi, Option.map_some', hcμ])
          hbt ((body_unfolded_iff (hL c hcL).1).mpr hcb)
        obtain ⟨c', hc', μ'', h₁, h₂⟩ := transformRuleLoop_complete h hlook res
          (List.mem_append_left _ (List.mem_reverse.mpr (mem_inlineAll_of hres hsrc))) hresq μ' hμ'b
        exact ⟨c', hc', μ'', h₁.trans hμ'h, h₂⟩
      · exact transformRuleLoop_complete h hlook t (List.mem_append_right _ ht) htq ν hb

end Loop

/-- `transform_rules` only appends to its target. -/
lemma transformRules_extends {fuel : Nat} {st : Inliner} :
    ∀ {rs tgt done cv out}, transformRules ctx fuel st rs tgt done cv = .ok out →
      List.IsPrefix tgt out.1
  | [], _, _, _, _, h => by cases h; exact List.prefix_refl _
  | r :: rs, tgt, done, cv, out, h => by
    rcases transformRules_cons_eq_ok h with ⟨-, h⟩ | ⟨-, _, _, _, hloop, h⟩
    · exact transformRules_extends h
    · exact (transformRuleLoop_extends hloop).trans (transformRules_extends h)

section Transform

variable {E : Interp} {st : Inliner} {fuel : Nat}
  (hctx : ctx.PreservesMeaning T) (hsound : ctx.UnifierSound)
  (hcomp : ctx.UnifierComplete) (hqf : ctx.KeepsQuantifierFree)
  (hinl : ∀ c ∈ st.inlinedRules, PosClean (st.inliningAllowed ctx) c ∧ c.hasQuantifier = false)
include hctx hsound hcomp hqf hinl

/-- `transform_rules` loses no instance of a quantifier-free rule with a non-admissible head
whose body is unfolded through `m_inlined_rules`. -/
lemma transformRules_realizes :
    ∀ {rs tgt done cv out}, transformRules ctx fuel st rs tgt done cv = .ok out →
      ∀ r ∈ rs, st.inliningAllowed ctx r.decl = false → r.hasQuantifier = false → ∀ ν,
        r.Body T N (Unfolded T N E (st.inliningAllowed ctx) st.inlinedRules) ν →
        Realized T N E out.1 (r.head.subst ν)
  | [], _, _, _, _, _ => fun _ h => absurd h (List.not_mem_nil _)
  | r :: rs, tgt, done, cv, out, h => by
    intro t ht hadm htq ν hb
    rcases transformRules_cons_eq_ok h with ⟨hd, hrest⟩ | ⟨-, _, _, _, hloop, hrest⟩
    · rcases List.mem_cons.mp ht with rfl | ht
      · exact absurd (hadm.symm.trans hd) Bool.false_ne_true
      · exact transformRules_realizes hrest t ht hadm htq ν hb
    · rcases List.mem_cons.mp ht with rfl | ht
      · obtain ⟨c, hc, μ, h₁, h₂⟩ := transformRuleLoop_complete hctx hsound hcomp hqf hinl hloop
          (fun _ hc => hc) t (List.mem_singleton_self _) htq ν hb
        exact ⟨c, (transformRules_extends hrest).subset hc, μ, h₁, h₂⟩
      · exact transformRules_realizes hrest t ht hadm htq ν hb

end Transform

/-! ## What the filling loop stores -/

/-- What a successful run of `transform_rule` adds to its target: rules without quantified
constraint or admissible positive atom, each over the head predicate of a rule of the
worklist. -/
lemma transformRuleLoop_added {st : Inliner} {self : Bool} :
    ∀ {n todo tgt modified cv out}, transformRuleLoop ctx st self n todo tgt modified cv = .ok out →
      ∃ added, out.1 = tgt ++ added ∧ ∀ c ∈ added, PosClean (st.inliningAllowed ctx) c ∧
        c.hasQuantifier = false ∧ c.decl ∈ todo.map Rule.decl
  | 0, _, _, _, _, _, h => by cases h
  | n + 1, [], tgt, _, _, _, h => by
    cases h
    exact ⟨[], (List.append_nil _).symm, fun _ h => absurd h (List.not_mem_nil _)⟩
  | n + 1, r :: todo, tgt, modified, cv, out, h => by
    rcases @transformRuleLoop_cons_cases ctx st self r with
      ⟨-, e⟩ | ⟨hq, hclean, e⟩ | ⟨-, i, hi, -, e⟩ <;> rw [e] at h <;>
      obtain ⟨added, hout, hadd⟩ := transformRuleLoop_added h
    · exact ⟨added, hout, fun c hc =>
        (hadd c hc).imp_right (And.imp_right (List.mem_cons_of_mem _))⟩
    · refine ⟨r :: added, by rw [hout, List.append_assoc, List.singleton_append], fun c hc => ?_⟩
      rcases List.mem_cons.mp hc with rfl | hc
      · exact ⟨hclean, hq, List.mem_cons_self _ _⟩
      · exact (hadd c hc).imp_right (And.imp_right (List.mem_cons_of_mem _))
    · refine ⟨added, hout, fun c hc => (hadd c hc).imp_right (And.imp_right fun hd => ?_)⟩
      rw [List.map_append, List.mem_append] at hd
      rcases hd with hd | hd
      · obtain ⟨t, ht, htd⟩ := List.mem_map.mp hd
        obtain ⟨s, -, _, _, htry⟩ := mem_inlineAll (List.mem_reverse.mp ht)
        rw [← htd, (tryToInlineRule_shape htry).2.2.1]
        exact List.mem_cons_self _ _
      · exact List.mem_cons_of_mem _ hd

/-- A run of the filling loop over the rules `M` keeps `inlining_allowed` and appends rules
without quantified constraint or admissible positive atom, each over the head predicate of a
rule of `M`. -/
lemma foldlM_fillRule_added {fuel : Nat} :
    ∀ (M : List Rule) {st st' : Inliner}, M.foldlM (Inliner.fillRule ctx fuel) st = .ok st' →
      st'.inliningAllowed ctx = st.inliningAllowed ctx ∧ ∃ added,
        st'.inlinedRules = st.inlinedRules ++ added ∧ ∀ c ∈ added,
          PosClean (st.inliningAllowed ctx) c ∧ c.hasQuantifier = false ∧ c.decl ∈ M.map Rule.decl
  | [], st, st', h => by
    cases h
    exact ⟨rfl, [], (List.append_nil _).symm, fun _ h => absurd h (List.not_mem_nil _)⟩
  | r :: M, st, st', h => by
    obtain ⟨st₁, h₁, h⟩ := except_bind_eq_ok h
    obtain ⟨tgt, _, cv, hloop, rfl⟩ := Inliner.fillRule_eq_ok h₁
    obtain ⟨added₁, hout₁, hadd₁⟩ := transformRuleLoop_added hloop
    obtain ⟨hA, added₂, hout₂, hadd₂⟩ := foldlM_fillRule_added M h
    refine ⟨hA, added₁ ++ added₂, by rw [hout₂, ← List.append_assoc]; exact congrArg (· ++ _) hout₁,
      fun c hc => ?_⟩
    rcases List.mem_append.mp hc with hc | hc
    · exact (hadd₁ c hc).imp_right (And.imp_right fun hd =>
      List.mem_cons.mpr (.inl (List.mem_singleton.mp hd)))
    · exact (hadd₂ c hc).imp_right (And.imp_right (List.mem_cons_of_mem _))

namespace Inliner

/-- With strata of one predicate, the filling loop hands over the rules of `p` as one block, and
no rule after the block defines a predicate other than `p` that `p` calls. -/
lemma fillOrder_block {cand : RuleSet} (hsingle : ∀ g ∈ cand.strats, g.length ≤ 1) {p : Pred}
    (hp : p ∈ cand.preds) :
    ∃ A C, fillOrder cand = A ++ cand.predicateRules p ++ C ∧
      ∀ x ∈ C, ∀ q, cand.Dep p q → q ≠ p → x.decl ≠ q := by
  obtain ⟨pre, post, hs⟩ := List.append_of_mem (RuleSet.mem_strats.mpr ⟨p, hp, rfl⟩)
  refine ⟨pre.flatMap (stratumRules cand), post.flatMap (stratumRules cand), ?_,
    fun x hx q hdep hne hxq => ?_⟩
  · rw [fillOrder, hs, List.flatMap_append, List.flatMap_cons,
      RuleSet.stratumOf_eq_singleton hsingle hp, List.append_assoc]
    rfl
  · obtain ⟨g, hg, hxg⟩ := List.mem_flatMap.mp hx
    exact RuleSet.not_mem_of_dep hsingle hdep hne hs g hg (hxq ▸ (mem_stratumRules hxg).2)

/-- A predicate `collect_non_empty_predicates` reports is never admissible. -/
lemma inliningAllowed_of_nonEmpty {fuel : Nat} {st₀ st : Inliner} {S cand : RuleSet}
    (hc : st₀.planCandidates ctx fuel S = .ok (st, cand)) {p : Pred}
    (hp : p ∈ ctx.nonEmptyPredicates) : st.inliningAllowed ctx p = false := by
  have h : p ∈ (st₀.countPredOccurrences ctx S).predsWithFacts :=
    (grows_foldl_countRule S _).facts ((mem_foldl_insert _ _).mpr (.inr hp))
  rw [← (frame_planCandidates hc).facts] at h
  simp [inliningAllowed, h]

end Inliner

/-- A predicate without facts whose only rule calls it positively derives nothing. -/
lemma not_derives_of_self_call {F : Interp} {S : RuleSet} {p : Pred} {r : Rule}
    (hone : (S.predicateRules p).length ≤ 1) (hr : r ∈ S.predicateRules p)
    (hself : ∃ a ∈ r.pos, a.pred = p) (hF : ∀ a, F a → a.pred ≠ p) {b : Atom}
    (hb : Derives T F S N b) : b.pred ≠ p := by
  induction hb with
  | fact hf => exact hF _ hf
  | @rule r' ν hr' _ _ _ ih =>
    intro hp
    obtain rfl : r' = r := List.mem_singleton.mp
      (eq_singleton_of_length_le_one hone hr ▸ List.mem_filter.mpr ⟨hr', decide_eq_true hp⟩)
    obtain ⟨a, ha, hap⟩ := hself
    exact ih a ha hap

section Fill

open Inliner

variable {E : Interp} {fuel : Nat} {st₀ st₁ st : Inliner} {S cand : RuleSet}
  (h0 : st₀.inlinedRules = []) (hc : st₀.planCandidates ctx fuel S = .ok (st₁, cand))
  (hfill : fill ctx fuel cand st₁ = .ok st)
include h0 hc hfill

/-- The lookup set the filling loop leaves holds rules without quantified constraint or
admissible positive atom. -/
lemma inlinedRules_fill :
    ∀ c ∈ st.inlinedRules, PosClean (st.inliningAllowed ctx) c ∧ c.hasQuantifier = false := by
  rw [fill_eq_foldlM_fillOrder] at hfill
  obtain ⟨hA, added, hout, hadd⟩ := foldlM_fillRule_added _ hfill
  rw [hout, (frame_planCandidates hc).inlined, inlinedRules_countPredOccurrences, h0, hA]
  exact fun c hc => ((hadd c hc).imp_right And.left)

variable (hctx : ctx.PreservesMeaning T) (hsound : ctx.UnifierSound)
  (hcomp : ctx.UnifierComplete) (hqf : ctx.KeepsQuantifierFree)
include hctx hsound hcomp hqf

/-- A rule of an admissible predicate that calls no admissible atom over its own predicate, with
an instance whose body is unfolded through the lookup set the filling loop leaves, realises the
instance's head there: its turn came after every rule of the predicates it calls. -/
lemma realized_of_fill {r : Rule} (hr : r ∈ S) (hp : st.inliningAllowed ctx r.decl = true)
    (hself : ∀ a ∈ r.pos, a.pred ≠ r.decl) (hrq : r.hasQuantifier = false) {ν : Subst}
    (hb : r.Body T N (Unfolded T N E (st.inliningAllowed ctx) st.inlinedRules) ν) :
    Realized T N E st.inlinedRules (r.head.subst ν) := by
  have hA := inliningAllowed_eq_of_fill hfill
  have hrc : r ∈ cand.predicateRules r.decl := by
    rw [predicateRules_planCandidates hc (hA ▸ hp)]
    exact List.mem_filter.mpr ⟨hr, decide_eq_true rfl⟩
  obtain ⟨A, C, horder, hC⟩ := fillOrder_block (strats_planCandidates hc)
    (RuleSet.decl_mem_preds (List.mem_filter.mp hrc).1)
  obtain ⟨B₁, B₂, hB⟩ := List.append_of_mem hrc
  rw [fill_eq_foldlM_fillOrder, horder, hB,
    show A ++ (B₁ ++ r :: B₂) ++ C = (A ++ B₁) ++ r :: (B₂ ++ C) by simp, List.foldlM_append] at hfill
  obtain ⟨stP, hP, hfill⟩ := except_bind_eq_ok hfill
  obtain ⟨stR, hR, hfill⟩ := except_bind_eq_ok hfill
  obtain ⟨tgt, _, cv, hloop, rfl⟩ := fillRule_eq_ok hR
  obtain ⟨hAP, XP, hXP, hPadd⟩ := foldlM_fillRule_added _ hP
  obtain ⟨-, X, hX, hadd⟩ := foldlM_fillRule_added _ hfill
  obtain ⟨Xr, hXr, hradd⟩ := transformRuleLoop_added hloop
  have hAP' : stP.inliningAllowed ctx = st.inliningAllowed ctx := hAP.trans hA.symm
  -- the rules `transform_rule` may look up for `r`: those stored before its turn
  have hL : ∀ c ∈ stP.inlinedRules,
      PosClean (stP.inliningAllowed ctx) c ∧ c.hasQuantifier = false := by
    rw [hXP, (frame_planCandidates hc).inlined, inlinedRules_countPredOccurrences, h0, hAP]
    exact fun c hc => (hPadd c hc).imp_right And.left
  -- a rule of the final lookup set over a predicate `r` calls was stored before its turn
  have hsub : ∀ a ∈ r.pos, ∀ c ∈ st.inlinedRules, c.decl = (a.subst ν).pred →
      st.inliningAllowed ctx (a.subst ν).pred = true → c ∈ stP.inlinedRules := by
    intro a ha c hc hca hadm
    have hne : c.decl ≠ r.decl := hca ▸ hself a ha
    have hdep : cand.Dep r.decl a.pred :=
      ⟨r, (List.mem_filter.mp hrc).1, rfl, List.mem_map_of_mem _ (List.mem_append_left _ ha)⟩
    rw [hX, show tgt = _ from hXr, List.mem_append, List.mem_append] at hc
    rcases hc with (hc | hc) | hc
    · exact hc
    · exact absurd (List.mem_singleton.mp (hradd c hc).2.2) hne
    · obtain ⟨x, hx, hxd⟩ := List.mem_map.mp (hadd c hc).2.2
      rcases List.mem_append.mp hx with hx | hx
      · have hxB : x ∈ cand.predicateRules r.decl := hB ▸ List.mem_append_right _ (List.mem_cons_of_mem _ hx)
        exact absurd (hxd.symm.trans (of_decide_eq_true (List.mem_filter.mp hxB).2)) hne
      · exact absurd (hxd.trans hca) (hC x hx a.pred hdep (hself a ha))
  have hb' : r.Body T N (Unfolded T N E (stP.inliningAllowed ctx) stP.inlinedRules) ν := by
    rw [hAP']
    exact ⟨fun a ha => unfolded_mono (hsub a ha) (hb.1 a ha), hb.2⟩
  obtain ⟨c, hcm, μ, h₁, h₂⟩ := transformRuleLoop_complete hctx hsound hcomp hqf hL hloop
    (fun _ hc => hc) r (List.mem_singleton_self _) hrq ν hb'
  exact ⟨c, hX ▸ List.mem_append_left _ hcm, μ, h₁, h₂⟩

/-- Every atom the input derives is unfolded through the lookup set the filling loop leaves, in
what the output of `transform_rules` derives. -/
lemma unfolded_of_derives {F : Interp} (hS : ∀ r ∈ S, r.hasQuantifier = false)
    (hF : ∀ a, F a → a.pred ∈ ctx.nonEmptyPredicates) {out : RuleSet} {done : Bool}
    {cv : Converters} (htr : transformRules ctx fuel st S [] false st.cv = .ok (out, done, cv))
    {b : Atom} (hb : Derives T F S N b) :
    Unfolded T N (Derives T F out N) (st.inliningAllowed ctx) st.inlinedRules b := by
  have hA := inliningAllowed_eq_of_fill hfill
  have hfacts : ∀ a, F a → st.inliningAllowed ctx a.pred = false := fun a ha =>
    hA ▸ inliningAllowed_of_nonEmpty hc (hF a ha)
  induction hb with
  | fact hf => exact (unfolded_of_not_adm (hfacts _ hf)).mpr (.fact hf)
  | @rule r ν hr hpos hneg hint ih =>
    have hbody : r.Body T N
        (Unfolded T N (Derives T F out N) (st.inliningAllowed ctx) st.inlinedRules) ν :=
      ⟨ih, hneg, hint⟩
    cases hd : st.inliningAllowed ctx r.decl
    · -- `transform_rules` transforms the rule
      obtain ⟨c, hcm, μ, h₁, h₂⟩ := transformRules_realizes hctx hsound hcomp hqf
        (inlinedRules_fill h0 hc hfill) htr r hr hd (hS r hr) ν hbody
      exact (unfolded_of_not_adm (b := r.head.subst ν) hd).mpr (h₁ ▸ Derives.closed hcm h₂)
    · -- the rule was transformed into `m_inlined_rules`, unless it calls its own predicate
      rw [unfolded_of_adm (b := r.head.subst ν) hd]
      by_cases hself : ∃ a ∈ r.pos, a.pred = r.decl
      · have hrp : r ∈ S.predicateRules r.decl := List.mem_filter.mpr ⟨hr, decide_eq_true rfl⟩
        have hone := ((planCandidates_multipliers hc).2 r.decl (hA ▸ hd) r hrp).2 (.inl hself)
        exact (not_derives_of_self_call hone hrp hself
          (fun a ha he => Bool.false_ne_true ((he ▸ hfacts a ha).symm.trans hd))
          (.rule hr hpos hneg hint) rfl).elim
      · push_neg at hself
        exact realized_of_fill h0 hc hfill hctx hsound hcomp hqf hr hd hself (hS r hr) hbody

end Fill

/-- Run from an object with an empty `m_inlined_rules` on an input without quantified
constraints, with `m_unif` returning most general unifiers and the collaborators keeping
instances and adding no quantifier: after `plan_inlining` and `transform_rules`, for every fact
base over the predicates `collect_non_empty_predicates` reports and every reading `N` of the
negated atoms, the output derives exactly what the input derives on every predicate that
`inlining_allowed` rejects. -/
theorem transformRules_complete {F : Interp} {fuel : Nat} {st₀ st : Inliner} {S out : RuleSet}
    {done : Bool} {cv : Converters} (hctx : ctx.PreservesMeaning T) (hsound : ctx.UnifierSound)
    (hcomp : ctx.UnifierComplete) (hqf : ctx.KeepsQuantifierFree)
    (hS : ∀ r ∈ S, r.hasQuantifier = false) (hF : ∀ a, F a → a.pred ∈ ctx.nonEmptyPredicates)
    (h0 : st₀.inlinedRules = []) (hplan : st₀.planInlining ctx fuel S = .ok st)
    (htr : transformRules ctx fuel st S [] false st.cv = .ok (out, done, cv))
    (N : Interp) (a : Atom) (ha : st.inliningAllowed ctx a.pred = false) :
    Derives T F out N a ↔ Derives T F S N a := by
  obtain ⟨st₁, cand, hc, hfill⟩ := Inliner.planInlining_eq_ok hplan
  have hcl := resolutionClosed_closed hctx hsound N (Derives T F S N)
  refine ⟨fun h => Derives.minimal (fun _ => .fact) (hcl.transformRules
    (hcl.planInlining (fun _ hr _ => Derives.closed hr) (by simp [h0]) hplan)
    (fun _ hr _ => Derives.closed hr) (fun _ h => by cases h) htr) h, fun h => ?_⟩
  exact (unfolded_of_not_adm ha).mp
    (unfolded_of_derives h0 hc hfill hctx hsound hcomp hqf hS hF htr h)

/-- Modelled from the spec: the collaborators of `chainContext` with the most general unifier
`mguUnif`. -/
def mguChainContext : Context := { chainContext with unif := mguUnif }

lemma mguChainContext_preservesMeaning (T : Theory) : mguChainContext.PreservesMeaning T :=
  have h := Context.reference_preservesMeaning [⟨0, 1⟩] [⟨2, 1⟩] ⟨[]⟩ T
  ⟨h.1, h.2, h.3⟩

lemma mguChainContext_unifierSound : mguChainContext.UnifierSound := fun _ _ _ _ h =>
  mguUnif_sound h

lemma mguChainContext_unifierComplete : mguChainContext.UnifierComplete := fun _ _ _ hb _ _ h =>
  mguUnif_complete (fun t ht => hb t (List.mem_append_left _ ht)) h

lemma mguChainContext_keepsQuantifierFree : mguChainContext.KeepsQuantifierFree :=
  have h := Context.reference_keepsQuantifierFree [⟨0, 1⟩] [⟨2, 1⟩] ⟨[]⟩
  ⟨h.1, h.2⟩

/-- On `Out(x) :- P(x)`, `P(x) :- B(x)` with facts for `B`, the bulk stage returns, and the
output derives `Out(c)` exactly when the input does. -/
theorem transformRules_complete_chain :
    ∃ fuel st out done cv, Inliner.init.planInlining mguChainContext fuel chainRules = .ok st ∧
      transformRules mguChainContext fuel st chainRules [] false st.cv = .ok (out, done, cv) ∧
      (Derives (fun _ => True) (fun a => a.pred = ⟨2, 1⟩) out (fun _ => False)
          ⟨⟨0, 1⟩, [.sym 0]⟩ ↔
        Derives (fun _ => True) (fun a => a.pred = ⟨2, 1⟩) chainRules (fun _ => False)
          ⟨⟨0, 1⟩, [.sym 0]⟩) := by
  obtain ⟨fuel₀, st, cand, hc⟩ :=
    @planCandidates_ok mguChainContext chainRules (close_iff.mp rfl) Inliner.init
  obtain ⟨K, inl, cv, out, done, cv', -, -, hrun⟩ := bulk_finishes rfl hc
  obtain ⟨-, hplan, htr⟩ := hrun K le_rfl
  exact ⟨K, _, out, done, cv', hplan, htr, transformRules_complete
    (mguChainContext_preservesMeaning _) mguChainContext_unifierSound
    mguChainContext_unifierComplete mguChainContext_keepsQuantifierFree
    (by decide) (fun a ha => by rw [ha]; exact List.mem_singleton_self _) rfl hplan htr _ _
    (by simp [Inliner.inliningAllowed, Context.isOutputPredicate, mguChainContext,
      chainContext, Context.reference])⟩

end RuleInliner
