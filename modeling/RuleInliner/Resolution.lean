import RuleInliner.Semantics
import RuleInliner.Syntax.Subst
import RuleInliner.Reuse

/-!
# Resolution: what `try_to_inline_rule` returns

`mk_rule_inliner::try_to_inline_rule` renumbers the target's variables, refuses a source with a
quantified constraint, unifies positive tail atom `i` of the target with the source's head
(`rule_unifier::unify_rules`) and builds the resolvent (`rule_unifier::apply`): the substituted
head over the target's tail without atom `i` followed by the source's tail (`resolvent`), then
renumbered, its unbound variables fixed and its interpreted tail simplified.

The resolvent is read through its instances. `Rule.Within T r r'` says that every instance of
`r` whose body holds is matched by one of `r'` with the same head, and `Rule.Equiv` is that
both ways. Substitution (`Rule.subst_within`) and renumbering (`Rule.equiv_normVars`) respect
it. The collaborators are taken at their specification: `m_unif` returns a most general unifier
(`Context.MostGeneral`), and the interpreted-tail simplifier and `fix_unbound_vars` keep a rule's
instances (`Context.PreservesMeaning`), the simplifier failing only on an unsatisfiable
interpreted tail.

Then the resolvent holds in every model of the two rules (`resolvent_holds`). A pair of
instances that resolve on atom `i` (`Resolvable`) makes the unification and the construction
succeed, with an instance of the resolvent carrying the target instance's head
(`resolve_of_resolvable`). `tryToInlineRule_resolution` assembles the two. A pair can resolve
although the call fails only when the source holds a quantified constraint, which
`try_to_inline_rule` refuses before unifying (`tryToInlineRule_rejects_quantified`).
-/

namespace RuleInliner

variable {T : Theory} {N M : Interp}

/-! ## Instances of a rule -/

/-- A literal of the flat tail holds under `ν`: a positive atom in `M`, a negated one outside
`N`, a constraint in the theory. -/
def TailElem.Holds (T : Theory) (N M : Interp) (ν : Subst) : TailElem → Prop
  | .atom a false => M (a.subst ν)
  | .atom a true => ¬ N (a.subst ν)
  | .interp c => T (c.subst ν)

lemma TailElem.holds_subst (σ ν : Subst) (e : TailElem) :
    (e.subst σ).Holds T N M ν ↔ e.Holds T N M (σ.comp ν) := by
  rcases e with ⟨a, _ | _⟩ | c <;>
    simp only [TailElem.subst, TailElem.Holds, Atom.subst_subst, Constraint.subst_subst]

lemma Subst.comp_var (σ : Subst) : σ.comp Term.var = σ := funext fun v => Term.subst_var (σ v)

lemma Atom.subst_eq_subst_iff {a b : Atom} {σ τ : Subst} :
    a.subst σ = b.subst τ ↔ a.pred = b.pred ∧ a.args.map (Term.subst σ) = b.args.map (Term.subst τ) := by
  rcases a with ⟨p, as⟩
  rcases b with ⟨q, bs⟩
  simp [Atom.subst]

lemma forall_mem_dedupFirst {α : Type} [DecidableEq α] {l : List α} {P : α → Prop} :
    (∀ a ∈ dedupFirst l, P a) ↔ ∀ a ∈ l, P a :=
  ⟨fun h a ha => h a (subset_dedupFirst l ha), fun h a ha => h a ((dedupFirst_sublist l).subset ha)⟩

lemma forall_mem_iff_eraseIdx {α : Type} {l : List α} {i : Nat} (hi : i < l.length)
    {P : α → Prop} : (∀ a ∈ l, P a) ↔ P l[i] ∧ ∀ a ∈ l.eraseIdx i, P a := by
  refine ⟨fun h => ⟨h _ (List.getElem_mem hi), fun a ha => h a (List.mem_of_mem_eraseIdx ha)⟩,
    fun ⟨hi', h⟩ a ha => ?_⟩
  obtain ⟨j, hj, rfl⟩ := List.mem_iff_getElem.mp ha
  by_cases hji : j = i
  · subst hji
    exact hi'
  · exact h _ (List.mem_eraseIdx_iff_getElem.mpr ⟨j, hj, hji, rfl⟩)

namespace Rule

/-- The target without its `i`-th positive atom: the literals resolution keeps. -/
def erasePos (r : Rule) (i : Nat) : Rule := { r with pos := r.pos.eraseIdx i }

lemma erasePos_subst (r : Rule) (i : Nat) (σ : Subst) :
    (r.erasePos i).subst σ = (r.subst σ).erasePos i := by
  simp [erasePos, subst, eraseIdx_map]

lemma tail_eraseIdx {r : Rule} {i : Nat} (hi : i < r.pos.length) :
    r.tail.eraseIdx i = (r.erasePos i).tail := by
  have hlen : i < (r.pos.map (TailElem.atom · false)).length := by simpa using hi
  rw [tail, List.append_assoc, List.eraseIdx_append_of_lt_length hlen, eraseIdx_map, tail, erasePos,
    List.append_assoc]

lemma body_iff_tail (r : Rule) (ν : Subst) : r.Body T N M ν ↔ ∀ e ∈ r.tail, e.Holds T N M ν := by
  simp only [Body, tail, List.forall_mem_append, List.forall_mem_map, TailElem.Holds, and_assoc]

lemma body_iff_erasePos {r : Rule} {i : Nat} (hi : i < r.pos.length) (ν : Subst) :
    r.Body T N M ν ↔ M (r.pos[i].subst ν) ∧ (r.erasePos i).Body T N M ν := by
  simp only [Body, erasePos, forall_mem_iff_eraseIdx hi, and_assoc]

lemma body_subst (σ ν : Subst) (r : Rule) : (r.subst σ).Body T N M ν ↔ r.Body T N M (σ.comp ν) := by
  simp only [Body, subst, List.forall_mem_map, Atom.subst_subst, Constraint.subst_subst]

/-- Whether the body of an instance holds depends on the instance only. -/
lemma body_congr_subst {r r' : Rule} {ν ν' : Subst} (h : r.subst ν = r'.subst ν') :
    r.Body T N M ν ↔ r'.Body T N M ν' := by
  rw [← Subst.comp_var ν, ← body_subst, h, body_subst, Subst.comp_var]

/-- Every instance of a rule is an instance of its renumbering. -/
lemma exists_normVars_instance (r : Rule) (ν : Subst) : ∃ ν', r.normVars.subst ν' = r.subst ν := by
  obtain ⟨ν', hν'⟩ := r.exists_normIndex_valuation ν
  exact ⟨ν', by rw [normVars_eq, subst_subst]; exact subst_congr fun v hv => hν' v hv⟩

lemma le_maxVar {r : Rule} {v : Nat} (h : v ∈ r.vars) : v ≤ r.maxVar := by
  unfold maxVar
  generalize r.vars = l at h
  induction l with
  | nil => cases h
  | cons w l ih =>
    rcases List.mem_cons.mp h with rfl | h
    · exact le_max_left _ _
    · exact (ih h).trans (le_max_right _ _)

/-- Every instance of `r` whose body holds is matched by an instance of `r'` with the same head
whose body holds. -/
def Within (T : Theory) (r r' : Rule) : Prop :=
  ∀ N M ν, r.Body T N M ν → ∃ ν', r'.Body T N M ν' ∧ r'.head.subst ν' = r.head.subst ν

/-- `r` and `r'` have the same instances. -/
def Equiv (T : Theory) (r r' : Rule) : Prop := r.Within T r' ∧ r'.Within T r

lemma Within.refl (r : Rule) : r.Within T r := fun _ _ ν h => ⟨ν, h, rfl⟩

lemma Within.trans {r₁ r₂ r₃ : Rule} (h₁ : r₁.Within T r₂) (h₂ : r₂.Within T r₃) :
    r₁.Within T r₃ := fun N M ν h => by
  obtain ⟨ν₂, hb₂, hh₂⟩ := h₁ N M ν h
  obtain ⟨ν₃, hb₃, hh₃⟩ := h₂ N M ν₂ hb₂
  exact ⟨ν₃, hb₃, hh₃.trans hh₂⟩

/-- What is closed under `r'` is closed under every rule within it. -/
lemma Within.closed {r r' : Rule} (h : r.Within T r') (h' : r'.Closed T N M) : r.Closed T N M :=
  fun ν hb => by
    obtain ⟨ν', hb', hh⟩ := h N M ν hb
    exact hh ▸ h' ν' hb'

/-- A model of `r'` is a model of every rule within it. -/
lemma Within.holds {r r' : Rule} (h : r.Within T r') (h' : r'.Holds T M) : r.Holds T M :=
  h.closed h'

lemma Equiv.refl (r : Rule) : r.Equiv T r := ⟨Within.refl r, Within.refl r⟩

lemma Equiv.symm {r r' : Rule} (h : r.Equiv T r') : r'.Equiv T r := ⟨h.2, h.1⟩

lemma Equiv.trans {r₁ r₂ r₃ : Rule} (h₁ : r₁.Equiv T r₂) (h₂ : r₂.Equiv T r₃) : r₁.Equiv T r₃ :=
  ⟨h₁.1.trans h₂.1, h₂.2.trans h₁.2⟩

/-- Every instance of `r.subst σ` is one of `r`. -/
lemma subst_within (σ : Subst) (r : Rule) : (r.subst σ).Within T r :=
  fun _ _ ν h => ⟨σ.comp ν, (body_subst σ ν r).mp h, (Atom.subst_subst _ _ _).symm⟩

/-- Renumbering keeps the instances of a rule. -/
lemma equiv_normVars (r : Rule) : r.Equiv T r.normVars := by
  refine ⟨fun _ _ ν h => ?_, subst_within _ r⟩
  obtain ⟨ν', hν'⟩ := r.exists_normVars_instance ν
  exact ⟨ν', (body_congr_subst hν').mpr h, congrArg head hν'⟩

end Rule

/-! ## The collaborators' contracts -/

/-- Modelled from the spec: `m_unif` returns a most general unifier of two argument lists whose
variables lie below `n`, the second list at offset 1: a pair of substitutions that equates them,
through which every other pair that equates them factors. -/
structure Context.MostGeneral (ctx : Context) (n : Nat) (as bs : List Term) : Prop where
  sound : ∀ σ, ctx.unif n as bs = some σ → as.map (Term.subst σ.1) = bs.map (Term.subst σ.2)
  complete : ∀ θ₁ θ₂ : Subst, as.map (Term.subst θ₁) = bs.map (Term.subst θ₂) →
    ∃ σ η, ctx.unif n as bs = some σ ∧ ∀ v < n, θ₁ v = (σ.1 v).subst η ∧ θ₂ v = (σ.2 v).subst η

/-- Modelled from the spec: `fix_unbound_vars` and the interpreted-tail simplifier keep the
instances of a rule, and the simplifier fails only on an interpreted tail no instance
satisfies. -/
structure Context.PreservesMeaning (ctx : Context) (T : Theory) : Prop where
  closeUnbound : ∀ r : Rule, r.Equiv T { r with interp := ctx.closeUnbound r }
  simplify : ∀ (r : Rule) (s : Subst × List Constraint), ctx.simplify r = some s →
    r.Equiv T { r.subst s.1 with interp := s.2 }
  unsat : ∀ r : Rule, ctx.simplify r = none → ∀ ν : Subst, ¬ ∀ c ∈ r.interp, T (c.subst ν)

/-- The reference collaborators change no rule. -/
lemma Context.reference_preservesMeaning (outputs facts : List Pred) (params : Params.Obj)
    (T : Theory) : (Context.reference outputs facts params).PreservesMeaning T where
  closeUnbound r := Rule.Equiv.refl r
  simplify r s hs := by
    cases hs
    simp only [Rule.subst_var]
    exact Rule.Equiv.refl r
  unsat _ h := by cases h

lemma Context.PreservesMeaning.fixUnbound {ctx : Context} (hctx : ctx.PreservesMeaning T)
    (r : Rule) :
    r.Equiv T (if ctx.fixUnboundVars then { r with interp := ctx.closeUnbound r } else r) := by
  split
  · exact hctx.closeUnbound r
  · exact Rule.Equiv.refl r

/-! ## The unifier and the resolvent -/

/-- The rule `rule_unifier::apply` builds with `rule_manager::mk`, before renumbering it. -/
def resolvent (σ : Subst × Subst) (tgt : Rule) (i : Nat) (src : Rule) : Rule :=
  mkRule (tgt.head.subst σ.1) (removeDuplicateTails
    ((tgt.tail.eraseIdx i).map (TailElem.subst σ.1) ++ src.tail.map (TailElem.subst σ.2)))

lemma mkRule_body (hd : Atom) (ν : Subst) :
    ∀ tail : List TailElem, (mkRule hd tail).Body T N M ν ↔ ∀ e ∈ tail, e.Holds T N M ν
  | [] => by simp [mkRule, Rule.Body]
  | e :: tail => by
    rw [List.forall_mem_cons, ← mkRule_body hd ν tail]
    rcases e with ⟨a, _ | _⟩ | c <;>
      simp only [mkRule, Rule.Body, List.filterMap_cons, TailElem.posAtom?, TailElem.negAtom?,
        TailElem.interp?, List.forall_mem_cons, TailElem.Holds] <;> tauto

lemma resolvent_head (σ : Subst × Subst) (tgt : Rule) (i : Nat) (src : Rule) (η : Subst) :
    (resolvent σ tgt i src).head.subst η = tgt.head.subst (σ.1.comp η) :=
  Atom.subst_subst _ _ _

/-- The body of the resolvent holds exactly when the kept literals of the target hold under the
target's half of the unifier and the body of the source under the source's half. -/
lemma resolvent_body {σ : Subst × Subst} {tgt src : Rule} {i : Nat} (hi : i < tgt.pos.length)
    (η : Subst) : (resolvent σ tgt i src).Body T N M η ↔
      (tgt.erasePos i).Body T N M (σ.1.comp η) ∧ src.Body T N M (σ.2.comp η) := by
  rw [resolvent, mkRule_body, removeDuplicateTails, forall_mem_dedupFirst, List.forall_mem_append,
    List.forall_mem_map, List.forall_mem_map, Rule.tail_eraseIdx hi, Rule.body_iff_tail,
    Rule.body_iff_tail]
  simp only [TailElem.holds_subst]

lemma applyUnifier_equiv {ctx : Context} (hctx : ctx.PreservesMeaning T) {σ : Subst × Subst}
    {tgt src res : Rule} {i : Nat} (h : applyUnifier ctx σ tgt i src = some res) :
    res.Equiv T (resolvent σ tgt i src) := by
  simp only [applyUnifier, Option.map_eq_some'] at h
  obtain ⟨s, hs, rfl⟩ := h
  exact (((Rule.equiv_normVars _).trans (hctx.fixUnbound _)).trans (hctx.simplify _ s hs)).symm

/-- The simplifier cannot fail on a resolvent with an instance whose body holds. -/
lemma applyUnifier_ne_none {ctx : Context} (hctx : ctx.PreservesMeaning T) {σ : Subst × Subst}
    {tgt src : Rule} {i : Nat} {η : Subst} (hb : (resolvent σ tgt i src).Body T N M η) :
    applyUnifier ctx σ tgt i src ≠ none := by
  simp only [applyUnifier, ne_eq, Option.map_eq_none']
  intro hs
  obtain ⟨ν, hν, -⟩ := ((Rule.equiv_normVars _).trans (hctx.fixUnbound _)).1 N M η hb
  exact hctx.unsat _ hs ν hν.2.2

lemma unifyRules_eq_some {ctx : Context} {tgt src : Rule} {i : Nat} {σ : Subst × Subst} :
    unifyRules ctx tgt i src = some σ ↔ ∃ a ∈ tgt.pos[i]?, a.pred = src.head.pred ∧
      ctx.unif (max tgt.maxVar src.maxVar + 1) a.args src.head.args = some σ := by
  unfold unifyRules Context.unifyAtoms
  cases tgt.pos[i]? with
  | none => simp
  | some a => by_cases hp : a.pred = src.head.pred <;> simp [hp]

section Unifier

variable {ctx : Context} {tgt src : Rule} {i : Nat}
  (hunif : ∀ a ∈ tgt.pos[i]?, ctx.MostGeneral (max tgt.maxVar src.maxVar + 1) a.args src.head.args)
include hunif

/-- What `unify_rules` returns equates atom `i` of the target with the source's head. -/
lemma unifyRules_unifies {σ : Subst × Subst} (h : unifyRules ctx tgt i src = some σ) :
    tgt.pos[i]?.map (Atom.subst σ.1) = some (src.head.subst σ.2) := by
  obtain ⟨a, ha, hpred, hσ⟩ := unifyRules_eq_some.mp h
  rw [ha, Option.map_some', Atom.subst_eq_subst_iff.mpr ⟨hpred, (hunif a ha).sound σ hσ⟩]

/-- Instances of the target and of the source equating atom `i` with the source's head factor
through what `unify_rules` returns. -/
lemma unifyRules_factors {ν₁ ν₂ : Subst}
    (h : tgt.pos[i]?.map (Atom.subst ν₁) = some (src.head.subst ν₂)) :
    ∃ σ η, unifyRules ctx tgt i src = some σ ∧
      tgt.subst (σ.1.comp η) = tgt.subst ν₁ ∧ src.subst (σ.2.comp η) = src.subst ν₂ := by
  obtain ⟨a, ha, hsa⟩ := Option.map_eq_some'.mp h
  obtain ⟨hpred, hargs⟩ := Atom.subst_eq_subst_iff.mp hsa
  obtain ⟨σ, η, hσ, hη⟩ := (hunif a ha).complete ν₁ ν₂ hargs
  have hlt : ∀ {r : Rule} {v : Nat}, v ∈ r.vars → r.maxVar ≤ max tgt.maxVar src.maxVar →
      v < max tgt.maxVar src.maxVar + 1 := fun hv hr => Nat.lt_succ_of_le ((Rule.le_maxVar hv).trans hr)
  exact ⟨σ, η, unifyRules_eq_some.mpr ⟨a, ha, hpred, hσ⟩,
    Rule.subst_congr fun v hv => (hη v (hlt hv (le_max_left _ _))).1.symm,
    Rule.subst_congr fun v hv => (hη v (hlt hv (le_max_right _ _))).2.symm⟩

end Unifier

/-! ## Soundness and completeness -/

/-- What is closed under the target and the source is closed under the resolvent built from a
unifier of atom `i` and the source's head. -/
lemma resolvent_closed {σ : Subst × Subst} {tgt src : Rule} {i : Nat}
    (hσ : tgt.pos[i]?.map (Atom.subst σ.1) = some (src.head.subst σ.2))
    (ht : tgt.Closed T N M) (hs : src.Closed T N M) : (resolvent σ tgt i src).Closed T N M := by
  obtain ⟨a, ha, hsa⟩ := Option.map_eq_some'.mp hσ
  obtain ⟨hi, rfl⟩ := List.getElem?_eq_some_iff.mp ha
  intro η hb
  obtain ⟨hbt, hbs⟩ := (resolvent_body hi η).mp hb
  have hatom : M (tgt.pos[i].subst (σ.1.comp η)) := by
    rw [← Atom.subst_subst, hsa, Atom.subst_subst]
    exact hs _ hbs
  rw [resolvent_head]
  exact ht _ ((Rule.body_iff_erasePos hi _).mpr ⟨hatom, hbt⟩)

/-- Every model of the target and the source is a model of the resolvent built from a unifier
of atom `i` and the source's head. -/
lemma resolvent_holds {σ : Subst × Subst} {tgt src : Rule} {i : Nat}
    (hσ : tgt.pos[i]?.map (Atom.subst σ.1) = some (src.head.subst σ.2))
    (ht : tgt.Holds T M) (hs : src.Holds T M) : (resolvent σ tgt i src).Holds T M :=
  resolvent_closed hσ ht hs

/-- Instance `ν₁` of the target and instance `ν₂` of the source resolve on positive tail atom
`i` in `M`: that atom of the one is the head of the other, and every other literal and
constraint of both holds. -/
def Resolvable (T : Theory) (M : Interp) (tgt src : Rule) (i : Nat) (ν₁ ν₂ : Subst) : Prop :=
  tgt.pos[i]?.map (Atom.subst ν₁) = some (src.head.subst ν₂) ∧
    (tgt.erasePos i).Body T M M ν₁ ∧ src.Body T M M ν₂

/-- Instances of the target and the source that meet at atom `i`, the target's other literals
and the source's body holding (negated atoms read in `N`), make `unify_rules` succeed on the
renumbered target, and the resolvent has an instance whose body holds with the target
instance's head. -/
lemma resolve_of_instances {ctx : Context} {tgt src : Rule} {i : Nat} {ν₁ ν₂ : Subst}
    (hunif : ∀ a ∈ tgt.normVars.pos[i]?,
      ctx.MostGeneral (max tgt.normVars.maxVar src.maxVar + 1) a.args src.head.args)
    (hatom : tgt.pos[i]?.map (Atom.subst ν₁) = some (src.head.subst ν₂))
    (ht : (tgt.erasePos i).Body T N M ν₁) (hs : src.Body T N M ν₂) :
    ∃ σ, unifyRules ctx tgt.normVars i src = some σ ∧ ∃ η,
      (resolvent σ tgt.normVars i src).Body T N M η ∧
      (resolvent σ tgt.normVars i src).head.subst η = tgt.head.subst ν₁ := by
  obtain ⟨ν₁', hν₁'⟩ := tgt.exists_normVars_instance ν₁
  have hpos : tgt.normVars.pos[i]?.map (Atom.subst ν₁') = tgt.pos[i]?.map (Atom.subst ν₁) := by
    simpa only [Rule.subst_pos, List.getElem?_map] using congrArg (·.pos[i]?) hν₁'
  obtain ⟨σ, η, hσ, h₁, h₂⟩ := unifyRules_factors hunif (hpos.trans hatom)
  obtain ⟨a, ha, -⟩ := Option.map_eq_some'.mp (hpos.trans hatom)
  obtain ⟨hi, -⟩ := List.getElem?_eq_some_iff.mp ha
  refine ⟨σ, hσ, η, (resolvent_body hi η).mpr ⟨(Rule.body_congr_subst ?_).mpr ht,
    (Rule.body_congr_subst h₂).mpr hs⟩, ?_⟩
  · rw [Rule.erasePos_subst, Rule.erasePos_subst, h₁, hν₁']
  · rw [resolvent_head]
    exact congrArg Rule.head (h₁.trans hν₁')

/-- A resolvable pair makes `unify_rules` succeed on the renumbered target, and the resolvent
has an instance whose body holds with the target instance's head. -/
lemma resolve_of_resolvable {ctx : Context} {tgt src : Rule} {i : Nat} {ν₁ ν₂ : Subst}
    (hunif : ∀ a ∈ tgt.normVars.pos[i]?,
      ctx.MostGeneral (max tgt.normVars.maxVar src.maxVar + 1) a.args src.head.args)
    (hr : Resolvable T M tgt src i ν₁ ν₂) :
    ∃ σ, unifyRules ctx tgt.normVars i src = some σ ∧ ∃ η,
      (resolvent σ tgt.normVars i src).Body T M M η ∧
      (resolvent σ tgt.normVars i src).head.subst η = tgt.head.subst ν₁ :=
  resolve_of_instances hunif hr.1 hr.2.1 hr.2.2

/-- `try_to_inline_rule` succeeds exactly when the source has no quantifier, the unifier
succeeds and the simplifier does. -/
lemma tryToInlineRule_fst (ctx : Context) (cv : Converters) (tgt src : Rule) (i : Nat) :
    (tryToInlineRule ctx cv tgt src i).1 = if src.hasQuantifier then none else
      (unifyRules ctx tgt.normVars i src).bind fun σ => applyUnifier ctx σ tgt.normVars i src := by
  unfold tryToInlineRule
  split_ifs
  · rfl
  · cases unifyRules ctx tgt.normVars i src with
    | none => rfl
    | some σ =>
      dsimp only [Option.some_bind]
      cases applyUnifier ctx σ tgt.normVars i src <;> rfl

/-- For every target, source and index, with the unifier most general on atom `i` and the
collaborators keeping instances: what `try_to_inline_rule` returns holds in every model of the
target and the source, and has, for every pair of instances that resolve on atom `i`, an
instance with the target instance's head whose body holds. When it returns nothing and the
source has no quantified constraint, no pair of instances resolves. -/
theorem tryToInlineRule_resolution {ctx : Context} {cv : Converters} {tgt src : Rule} {i : Nat}
    (hctx : ctx.PreservesMeaning T)
    (hunif : ∀ a ∈ tgt.normVars.pos[i]?,
      ctx.MostGeneral (max tgt.normVars.maxVar src.maxVar + 1) a.args src.head.args) :
    (∀ res, (tryToInlineRule ctx cv tgt src i).1 = some res →
      (∀ M, tgt.Holds T M → src.Holds T M → res.Holds T M) ∧
      ∀ M ν₁ ν₂, Resolvable T M tgt src i ν₁ ν₂ →
        ∃ μ, res.head.subst μ = tgt.head.subst ν₁ ∧ res.Body T M M μ) ∧
    ((tryToInlineRule ctx cv tgt src i).1 = none → src.hasQuantifier = false →
      ∀ M ν₁ ν₂, ¬ Resolvable T M tgt src i ν₁ ν₂) := by
  refine ⟨fun res hres => ?_, fun hnone hq M ν₁ ν₂ hr => ?_⟩
  · rw [tryToInlineRule_fst] at hres
    split_ifs at hres
    obtain ⟨σ, hσ, hres⟩ := Option.bind_eq_some.mp hres
    have heq := applyUnifier_equiv hctx hres
    refine ⟨fun M ht hs => heq.1.holds (resolvent_holds (unifyRules_unifies hunif hσ)
      ((Rule.subst_within _ tgt).holds ht) hs), fun M ν₁ ν₂ hr => ?_⟩
    obtain ⟨σ', hσ', η, hb, hh⟩ := resolve_of_resolvable hunif hr
    cases hσ.symm.trans hσ'
    obtain ⟨μ, hμ, hhμ⟩ := heq.2 M M η hb
    exact ⟨μ, hhμ.trans hh, hμ⟩
  · obtain ⟨σ, hσ, η, hb, -⟩ := resolve_of_resolvable hunif hr
    rw [tryToInlineRule_fst, if_neg (by simp [hq]), hσ, Option.some_bind] at hnone
    exact applyUnifier_ne_none hctx hb hnone

/-- The reference unifier on `P(x₀)` against `P(x₀)`, the source shifted by one: it binds `x₀`
to the shifted `x₁`, and every other unifier factors through it. -/
lemma chainContext_mostGeneral : chainContext.MostGeneral 1 [.var 0] [.var 0] where
  sound σ h := by
    cases h
    rfl
  complete θ₁ θ₂ h := by
    refine ⟨_, fun _ => θ₂ 0, rfl, fun v hv => ?_⟩
    obtain rfl : v = 0 := by omega
    exact ⟨List.head_eq_of_cons_eq h, rfl⟩

/-- The chain `Out(x) :- P(x)`, `P(x) :- B(x)`, resolved on `P`. -/
theorem tryToInlineRule_resolution_chain :
    chainContext.PreservesMeaning (fun _ => True) ∧
      (∀ a ∈ (chainRules[0]!).normVars.pos[0]?, chainContext.MostGeneral
        (max (chainRules[0]!).normVars.maxVar (chainRules[1]!).maxVar + 1) a.args
          (chainRules[1]!).head.args) ∧
      (∀ res, (tryToInlineRule chainContext ⟨none, none⟩ chainRules[0]! chainRules[1]! 0).1 = some res →
        (∀ M, (chainRules[0]!).Holds (fun _ => True) M → (chainRules[1]!).Holds (fun _ => True) M →
          res.Holds (fun _ => True) M) ∧
        ∀ M ν₁ ν₂, Resolvable (fun _ => True) M chainRules[0]! chainRules[1]! 0 ν₁ ν₂ →
          ∃ μ, res.head.subst μ = (chainRules[0]!).head.subst ν₁ ∧ res.Body (fun _ => True) M M μ) ∧
      ((tryToInlineRule chainContext ⟨none, none⟩ chainRules[0]! chainRules[1]! 0).1 = none →
        (chainRules[1]!).hasQuantifier = false →
        ∀ M ν₁ ν₂, ¬ Resolvable (fun _ => True) M chainRules[0]! chainRules[1]! 0 ν₁ ν₂) :=
  have hctx := Context.reference_preservesMeaning _ _ _ (fun _ => True)
  have hunif : ∀ a ∈ (chainRules[0]!).normVars.pos[0]?, chainContext.MostGeneral
      (max (chainRules[0]!).normVars.maxVar (chainRules[1]!).maxVar + 1) a.args
        (chainRules[1]!).head.args := fun a ha => by
    cases ha
    exact chainContext_mostGeneral
  ⟨hctx, hunif, tryToInlineRule_resolution hctx hunif⟩

/-- A source with a quantified constraint: `P(x) :- B(x), ∃…(x)`. The collaborators meet their
contracts and the ground instances at `c₀` resolve, yet `try_to_inline_rule` refuses the
source. -/
theorem tryToInlineRule_rejects_quantified :
    chainContext.PreservesMeaning (fun _ => True) ∧
      chainContext.MostGeneral 1 [.var 0] [.var 0] ∧
      (tryToInlineRule chainContext ⟨none, none⟩ chainRules[0]!
        ⟨⟨⟨1, 1⟩, [.var 0]⟩, [⟨⟨2, 1⟩, [.var 0]⟩], [], [⟨.var 0, true⟩]⟩ 0).1 = none ∧
      Resolvable (fun _ => True) (fun _ => True) chainRules[0]!
        ⟨⟨⟨1, 1⟩, [.var 0]⟩, [⟨⟨2, 1⟩, [.var 0]⟩], [], [⟨.var 0, true⟩]⟩ 0
        (fun _ => .sym 0) (fun _ => .sym 0) :=
  ⟨Context.reference_preservesMeaning _ _ _ _, chainContext_mostGeneral, rfl,
    rfl, by simp [chainRules, Rule.erasePos, Rule.Body], by simp [Rule.Body]⟩

end RuleInliner
