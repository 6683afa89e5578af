import Mathlib
import RuleInliner.Reference.Unify

/-!
# A most general unifier

The reference `m_unif` of `Reference.lean` runs Robinson's algorithm on a fuel that bounds its
steps polynomially, which is not enough on every input, so it is sound (`referenceUnif_sound`)
but need not find a unifier that exists. `mguUnif` is a collaborator that meets the whole
contract: Robinson's algorithm with each binding applied to the remaining equations at once
(`mguEqs`), terminating because a binding removes a variable and every other step removes
symbols. What it returns equates the equations (`mguEqs_sound`), and every unifier factors
through it (`mguEqs_complete`, in the form `σ.comp θ = θ`: applying the result first changes
nothing).

It is modelled from the spec's description of `m_unif` and serves the contexts on which the
completeness results are run.
-/

namespace RuleInliner

/-- The substitution that binds `x` to `u` and no other variable. -/
def Subst.single (x : Nat) (u : Term) : Subst := fun w => if w = x then u else .var w

/-- Apply a substitution to both sides of every equation. -/
def substEqs (σ : Subst) (eqs : List (Term × Term)) : List (Term × Term) :=
  eqs.map fun e => (e.1.subst σ, e.2.subst σ)

/-- The variables of a list of equations. -/
def eqsVars (eqs : List (Term × Term)) : Finset Nat :=
  (eqs.flatMap fun e => e.1.vars ++ e.2.vars).toFinset

/-- The number of symbols of a list of equations. -/
def eqsSize (eqs : List (Term × Term)) : Nat := (eqs.map fun e => e.1.size + e.2.size).sum

lemma Term.size_pos : ∀ t : Term, 0 < t.size
  | .var _ => Nat.one_pos
  | .sym _ => Nat.one_pos
  | .app _ _ => Nat.succ_pos _

lemma Term.mem_vars_subst {σ : Subst} {w : Nat} :
    ∀ {t : Term}, w ∈ (t.subst σ).vars ↔ ∃ v ∈ t.vars, w ∈ (σ v).vars
  | .var _ => by simp [Term.subst, Term.vars]
  | .sym _ => by simp [Term.subst, Term.vars]
  | .app s t => by
    simp only [Term.subst, Term.vars, List.mem_append, Term.mem_vars_subst, exists_or, or_and_right]

lemma eqsVars_cons (s t : Term) (eqs : List (Term × Term)) :
    eqsVars ((s, t) :: eqs) = s.vars.toFinset ∪ t.vars.toFinset ∪ eqsVars eqs := by
  simp [eqsVars, Finset.union_assoc]

lemma eqsSize_cons (s t : Term) (eqs : List (Term × Term)) :
    eqsSize ((s, t) :: eqs) = s.size + t.size + eqsSize eqs := by
  simp [eqsSize]

/-- Binding `x` to a term free of `x` removes `x` from the equations and adds the variables of
the term. -/
lemma eqsVars_substEqs_single {x : Nat} {u : Term} (hx : x ∉ u.vars) (eqs : List (Term × Term)) :
    eqsVars (substEqs (Subst.single x u) eqs) ⊆ (eqsVars eqs ∪ u.vars.toFinset).erase x := by
  have hterm : ∀ t : Term, ∀ w ∈ (t.subst (Subst.single x u)).vars,
      w ≠ x ∧ (w ∈ t.vars ∨ w ∈ u.vars) := fun t w hw => by
    obtain ⟨v, hv, hw⟩ := Term.mem_vars_subst.mp hw
    by_cases hvx : v = x
    · simp only [Subst.single, if_pos hvx] at hw
      exact ⟨fun h => hx (h ▸ hw), .inr hw⟩
    · simp only [Subst.single, if_neg hvx, Term.vars, List.mem_singleton] at hw
      exact ⟨hw ▸ hvx, .inl (hw ▸ hv)⟩
  intro w hw
  simp only [eqsVars, substEqs, List.flatMap_map, List.mem_toFinset, List.mem_flatMap,
    List.mem_append] at hw
  obtain ⟨e, he, hw⟩ := hw
  refine Finset.mem_erase.mpr ?_
  simp only [eqsVars, Finset.mem_union, List.mem_toFinset, List.mem_flatMap, List.mem_append]
  rcases hw with hw | hw
  · obtain ⟨hne, h | h⟩ := hterm _ w hw
    · exact ⟨hne, .inl ⟨e, he, .inl h⟩⟩
    · exact ⟨hne, .inr h⟩
  · obtain ⟨hne, h | h⟩ := hterm _ w hw
    · exact ⟨hne, .inl ⟨e, he, .inr h⟩⟩
    · exact ⟨hne, .inr h⟩

lemma eqsVars_subset_cons (s t : Term) (eqs : List (Term × Term)) :
    eqsVars eqs ⊆ eqsVars ((s, t) :: eqs) := fun w hw => by
  rw [eqsVars_cons]
  exact Finset.mem_union_right _ hw

lemma eqsSize_lt_cons (s t : Term) (eqs : List (Term × Term)) :
    eqsSize eqs < eqsSize ((s, t) :: eqs) := by
  have := Term.size_pos s
  rw [eqsSize_cons]
  omega

lemma lex_lt_of_le_of_lt {a a' b b' : Nat} (ha : a' ≤ a) (hb : b' < b) :
    Prod.Lex (· < ·) (· < ·) (a', b') (a, b) := by
  rcases Nat.lt_or_eq_of_le ha with h | rfl
  · exact .left _ _ h
  · exact .right _ hb

/-- A binding step lowers the number of variables. -/
lemma card_eqsVars_bind {x : Nat} {u s t : Term} (hx : x ∉ u.vars) (hst : x ∈ s.vars ++ t.vars)
    (hu : ∀ w ∈ u.vars, w ∈ s.vars ++ t.vars) (eqs : List (Term × Term)) :
    (eqsVars (substEqs (Subst.single x u) eqs)).card < (eqsVars ((s, t) :: eqs)).card := by
  have hsub : eqsVars eqs ∪ u.vars.toFinset ⊆ eqsVars ((s, t) :: eqs) := fun w hw => by
    simp only [eqsVars, Finset.mem_union, List.mem_toFinset, List.mem_flatMap, List.mem_cons]
      at hw ⊢
    rcases hw with ⟨e, he, h⟩ | hw
    · exact ⟨e, .inr he, h⟩
    · exact ⟨(s, t), .inl rfl, hu w hw⟩
  have hx' : x ∈ eqsVars ((s, t) :: eqs) := by
    simp only [eqsVars, List.mem_toFinset, List.mem_flatMap, List.mem_cons]
    exact ⟨(s, t), .inl rfl, hst⟩
  calc (eqsVars (substEqs (Subst.single x u) eqs)).card
      ≤ ((eqsVars eqs ∪ u.vars.toFinset).erase x).card :=
        Finset.card_le_card (eqsVars_substEqs_single hx eqs)
    _ ≤ ((eqsVars ((s, t) :: eqs)).erase x).card :=
        Finset.card_le_card (Finset.erase_subset_erase x hsub)
    _ < (eqsVars ((s, t) :: eqs)).card := Finset.card_erase_lt_of_mem hx'

/-- Robinson's unification of a list of equations, each binding applied to the rest at once. -/
def mguEqs : List (Term × Term) → Option Subst
  | [] => some Term.var
  | (.var x, u) :: eqs =>
    if u = .var x then mguEqs eqs
    else if u.occurs x then none
    else (mguEqs (substEqs (Subst.single x u) eqs)).map (Subst.single x u).comp
  | (u, .var x) :: eqs =>
    if u.occurs x then none
    else (mguEqs (substEqs (Subst.single x u) eqs)).map (Subst.single x u).comp
  | (.sym f, .sym g) :: eqs => if f = g then mguEqs eqs else none
  | (.app s₁ s₂, .app t₁ t₂) :: eqs => mguEqs ((s₁, t₁) :: (s₂, t₂) :: eqs)
  | _ :: _ => none
termination_by eqs => ((eqsVars eqs).card, eqsSize eqs)
decreasing_by
  · exact lex_lt_of_le_of_lt (Finset.card_le_card (eqsVars_subset_cons _ _ eqs))
      (eqsSize_lt_cons _ _ eqs)
  · exact .left _ _ (@card_eqsVars_bind x u (.var x) u
      (fun h => ‹¬u.occurs x = true› (Term.occurs_eq_true_iff.mpr h))
      (List.mem_append_left _ (List.mem_singleton_self x)) (fun _ => List.mem_append_right _) eqs)
  · exact .left _ _ (@card_eqsVars_bind x u u (.var x)
      (fun h => ‹¬u.occurs x = true› (Term.occurs_eq_true_iff.mpr h))
      (List.mem_append_right _ (List.mem_singleton_self x)) (fun _ => List.mem_append_left _) eqs)
  · exact lex_lt_of_le_of_lt (Finset.card_le_card (eqsVars_subset_cons _ _ eqs))
      (eqsSize_lt_cons _ _ eqs)
  · refine lex_lt_of_le_of_lt (Finset.card_le_card fun w hw => ?_) ?_
    · simp only [eqsVars_cons, Term.vars, Finset.mem_union, List.mem_toFinset,
        List.mem_append] at hw ⊢
      tauto
    · simp only [eqsSize_cons, Term.size]
      omega

/-! ## Correctness -/

lemma Term.size_le_size_subst {θ : Subst} {x : Nat} :
    ∀ {u : Term}, x ∈ u.vars → (θ x).size ≤ (u.subst θ).size
  | .var _, h => by obtain rfl := List.mem_singleton.mp h; exact le_rfl
  | .sym _, h => absurd h (List.not_mem_nil _)
  | .app s t, h => by
    simp only [Term.subst, Term.size]
    rcases List.mem_append.mp h with h | h
    · have := Term.size_le_size_subst (θ := θ) h; omega
    · have := Term.size_le_size_subst (θ := θ) h; omega

/-- A variable is no unifier of a term that properly contains it (the occurs check). -/
lemma Term.subst_ne_of_occurs {θ : Subst} {x : Nat} {u : Term} (hx : x ∈ u.vars)
    (hne : u ≠ .var x) : θ x ≠ u.subst θ := fun h => by
  match u, hx, hne with
  | .var _, hx, hne => exact hne (by rw [List.mem_singleton.mp hx])
  | .app s t, hx, _ =>
    have hlt : (θ x).size < ((Term.app s t).subst θ).size := by
      simp only [Term.subst, Term.size]
      rcases List.mem_append.mp hx with hx | hx
      · have := Term.size_le_size_subst (θ := θ) hx; omega
      · have := Term.size_le_size_subst (θ := θ) hx; omega
    exact absurd (h ▸ hlt) (lt_irrefl _)

lemma Subst.single_comp {x : Nat} {u : Term} {θ : Subst} (h : θ x = u.subst θ) :
    (Subst.single x u).comp θ = θ := funext fun w => by
  show (Subst.single x u w).subst θ = θ w
  by_cases hw : w = x
  · rw [Subst.single, if_pos hw, hw, h]
  · rw [Subst.single, if_neg hw]
    rfl

lemma Term.subst_single_self {x : Nat} {u : Term} (hx : x ∉ u.vars) :
    (Term.var x).subst (Subst.single x u) = u.subst (Subst.single x u) := by
  rw [show u.subst (Subst.single x u) = u from Term.subst_bind_of_not_mem hx]
  simp [Term.subst, Subst.single]

/-- What `mguEqs` returns equates every equation. -/
lemma mguEqs_sound : ∀ (eqs : List (Term × Term)) (σ : Subst), mguEqs eqs = some σ →
    ∀ e ∈ eqs, e.1.subst σ = e.2.subst σ := by
  intro eqs
  induction eqs using mguEqs.induct with
  | case1 => exact fun _ _ e he => absurd he (List.not_mem_nil e)
  | case2 x eqs ih =>
    intro σ h
    rw [mguEqs.eq_2, if_pos rfl] at h
    exact List.forall_mem_cons.mpr ⟨rfl, ih σ h⟩
  | case3 x u eqs hne hocc =>
    intro σ h
    rw [mguEqs.eq_2, if_neg hne, if_pos hocc] at h
    cases h
  | case4 x u eqs hne hocc ih =>
    intro σ h
    rw [mguEqs.eq_2, if_neg hne, if_neg hocc] at h
    obtain ⟨σ', hσ', rfl⟩ := Option.map_eq_some'.mp h
    have hx : x ∉ u.vars := fun hx => hocc (Term.occurs_eq_true_iff.mpr hx)
    refine List.forall_mem_cons.mpr ⟨?_, fun e he => ?_⟩
    · rw [← Term.subst_subst, ← Term.subst_subst, Term.subst_single_self hx]
    · rw [← Term.subst_subst, ← Term.subst_subst]
      exact ih σ' hσ' _ (List.mem_map_of_mem _ he)
  | case5 u x eqs hne hocc =>
    intro σ h
    rw [mguEqs.eq_3 _ _ _ hne, if_pos hocc] at h
    cases h
  | case6 u x eqs hne hocc ih =>
    intro σ h
    rw [mguEqs.eq_3 _ _ _ hne, if_neg hocc] at h
    obtain ⟨σ', hσ', rfl⟩ := Option.map_eq_some'.mp h
    have hx : x ∉ u.vars := fun hx => hocc (Term.occurs_eq_true_iff.mpr hx)
    refine List.forall_mem_cons.mpr ⟨?_, fun e he => ?_⟩
    · rw [← Term.subst_subst, ← Term.subst_subst, Term.subst_single_self hx]
    · rw [← Term.subst_subst, ← Term.subst_subst]
      exact ih σ' hσ' _ (List.mem_map_of_mem _ he)
  | case7 g eqs ih =>
    intro σ h
    rw [mguEqs.eq_4, if_pos rfl] at h
    exact List.forall_mem_cons.mpr ⟨rfl, ih σ h⟩
  | case8 f g eqs hfg =>
    intro σ h
    rw [mguEqs.eq_4, if_neg hfg] at h
    cases h
  | case9 s₁ s₂ t₁ t₂ eqs ih =>
    intro σ h
    rw [mguEqs.eq_5] at h
    have := ih σ h
    simp only [List.forall_mem_cons] at this
    exact List.forall_mem_cons.mpr ⟨by simp only [Term.subst, this.1, this.2.1], this.2.2⟩
  | case10 head tail h₁ h₂ h₃ h₄ =>
    intro σ h
    rw [mguEqs.eq_6 _ _ h₁ h₂ h₃ h₄] at h
    cases h

/-- Every unifier of the equations factors through what `mguEqs` returns. -/
lemma mguEqs_complete : ∀ (eqs : List (Term × Term)) (θ : Subst),
    (∀ e ∈ eqs, e.1.subst θ = e.2.subst θ) → ∃ σ, mguEqs eqs = some σ ∧ σ.comp θ = θ := by
  intro eqs
  induction eqs using mguEqs.induct with
  | case1 => exact fun θ _ => ⟨_, mguEqs.eq_1, funext fun _ => rfl⟩
  | case2 x eqs ih =>
    intro θ h
    rw [mguEqs.eq_2, if_pos rfl]
    exact ih θ (List.forall_mem_cons.mp h).2
  | case3 x u eqs hne hocc =>
    intro θ h
    exact absurd (List.forall_mem_cons.mp h).1
      (Term.subst_ne_of_occurs (Term.occurs_eq_true_iff.mp hocc) hne)
  | case4 x u eqs hne hocc ih =>
    intro θ h
    obtain ⟨hxu, heqs⟩ := List.forall_mem_cons.mp h
    have hθ := Subst.single_comp hxu
    obtain ⟨σ', hσ', hc⟩ := ih θ fun e he => by
      obtain ⟨e', he', rfl⟩ := List.mem_map.mp he
      simp only [Term.subst_subst, hθ]
      exact heqs e' he'
    refine ⟨_, by rw [mguEqs.eq_2, if_neg hne, if_neg hocc, hσ', Option.map_some'], ?_⟩
    rw [Subst.comp_assoc, hc, hθ]
  | case5 u x eqs hne hocc =>
    intro θ h
    exact absurd (List.forall_mem_cons.mp h).1.symm
      (Term.subst_ne_of_occurs (Term.occurs_eq_true_iff.mp hocc) fun e => hne x e)
  | case6 u x eqs hne hocc ih =>
    intro θ h
    obtain ⟨hux, heqs⟩ := List.forall_mem_cons.mp h
    have hθ := Subst.single_comp hux.symm
    obtain ⟨σ', hσ', hc⟩ := ih θ fun e he => by
      obtain ⟨e', he', rfl⟩ := List.mem_map.mp he
      simp only [Term.subst_subst, hθ]
      exact heqs e' he'
    refine ⟨_, by rw [mguEqs.eq_3 _ _ _ hne, if_neg hocc, hσ', Option.map_some'], ?_⟩
    rw [Subst.comp_assoc, hc, hθ]
  | case7 g eqs ih =>
    intro θ h
    rw [mguEqs.eq_4, if_pos rfl]
    exact ih θ (List.forall_mem_cons.mp h).2
  | case8 f g eqs hfg =>
    intro θ h
    have := (List.forall_mem_cons.mp h).1
    simp only [Term.subst, Term.sym.injEq] at this
    exact absurd this hfg
  | case9 s₁ s₂ t₁ t₂ eqs ih =>
    intro θ h
    obtain ⟨happ, heqs⟩ := List.forall_mem_cons.mp h
    simp only [Term.subst, Term.app.injEq] at happ
    rw [mguEqs.eq_5]
    exact ih θ (List.forall_mem_cons.mpr ⟨happ.1, List.forall_mem_cons.mpr ⟨happ.2, heqs⟩⟩)
  | case10 head tail h₁ h₂ h₃ h₄ =>
    intro θ h
    obtain ⟨a, b⟩ := head
    have hab := (List.forall_mem_cons.mp h).1
    cases a <;> cases b
    all_goals first
      | exact absurd rfl (h₁ _ _)
      | exact absurd rfl (h₂ _ _)
      | exact absurd rfl (h₃ _ _)
      | exact absurd rfl (h₄ _ _ _ _)
      | cases hab

/-- Modelled from the spec: `m_unif` as a most general unifier of two argument lists, the
second shifted by `varCnt`. -/
def mguUnif (varCnt : Nat) (as bs : List Term) : Option (Subst × Subst) :=
  if as.length ≠ bs.length then none else
  (mguEqs (as.zip (bs.map (Term.subst fun v => .var (v + varCnt))))).map
    fun σ => (σ, fun v => σ (v + varCnt))

lemma forall_zip_of_map_eq {α β γ : Type} {f : α → γ} {g : β → γ} :
    ∀ {as : List α} {bs : List β}, as.map f = bs.map g →
      as.length = bs.length ∧ ∀ e ∈ as.zip bs, f e.1 = g e.2
  | [], [], _ => ⟨rfl, fun _ h => absurd h (List.not_mem_nil _)⟩
  | a :: as, b :: bs, h => by
    simp only [List.map_cons, List.cons.injEq] at h
    obtain ⟨hlen, hzip⟩ := forall_zip_of_map_eq h.2
    exact ⟨by simp [hlen], List.forall_mem_cons.mpr ⟨h.1, hzip⟩⟩

/-- What `mguUnif` returns equates the two lists. -/
theorem mguUnif_sound {varCnt : Nat} {as bs : List Term} {σ : Subst × Subst}
    (h : mguUnif varCnt as bs = some σ) : as.map (Term.subst σ.1) = bs.map (Term.subst σ.2) := by
  unfold mguUnif at h
  split_ifs at h with hlen
  obtain ⟨σ', hσ', rfl⟩ := Option.map_eq_some'.mp h
  refine map_eq_map_of_forall_zip (not_not.mp hlen) fun e he => ?_
  obtain ⟨a, b, he', rfl⟩ : ∃ a b, (a, b) ∈ as.zip bs ∧ e = (a, b) := ⟨e.1, e.2, he, rfl⟩
  have := mguEqs_sound _ σ' hσ' (a, b.subst fun v => .var (v + varCnt))
    (by rw [List.zip_map_right]; exact List.mem_map_of_mem (Prod.map id _) he')
  rw [this, Term.subst_subst]
  rfl

/-- Every pair of substitutions that equates two lists, the first with its variables below
`varCnt`, factors through what `mguUnif` returns. -/
theorem mguUnif_complete {varCnt : Nat} {as bs : List Term}
    (has : ∀ t ∈ as, ∀ v ∈ t.vars, v < varCnt) {θ₁ θ₂ : Subst}
    (h : as.map (Term.subst θ₁) = bs.map (Term.subst θ₂)) :
    ∃ σ η, mguUnif varCnt as bs = some σ ∧
      ∀ v < varCnt, θ₁ v = (σ.1 v).subst η ∧ θ₂ v = (σ.2 v).subst η := by
  obtain ⟨hlen, hzip⟩ := forall_zip_of_map_eq h
  set θ : Subst := fun v => if v < varCnt then θ₁ v else θ₂ (v - varCnt)
  have hθ₂ : ∀ v, θ (v + varCnt) = θ₂ v := fun v => by simp [θ]
  obtain ⟨σ, hσ, hc⟩ := mguEqs_complete (as.zip (bs.map (Term.subst fun v => .var (v + varCnt)))) θ
    fun e he => by
      rw [List.zip_map_right] at he
      obtain ⟨⟨a, b⟩, hab, rfl⟩ := List.mem_map.mp he
      have ha : a.subst θ = a.subst θ₁ := Term.subst_congr fun v hv =>
        if_pos (has a (List.of_mem_zip hab).1 v hv)
      simp only [Prod.map_fst, Prod.map_snd, id_eq, Term.subst_subst]
      rw [ha, hzip _ hab]
      exact Term.subst_congr fun v _ => (hθ₂ v).symm
  refine ⟨_, θ, by rw [mguUnif, if_neg (not_not.mpr hlen), hσ, Option.map_some'], fun v hv => ?_⟩
  constructor
  · show θ₁ v = (σ v).subst θ
    rw [← Subst.comp, hc]
    exact (if_pos hv).symm
  · show θ₂ v = (σ (v + varCnt)).subst θ
    rw [← Subst.comp, hc, hθ₂]

end RuleInliner
