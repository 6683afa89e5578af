import RuleInliner.Reference
import RuleInliner.Syntax.Subst

/-!
# The reference unifier is sound

`unifyEqs` is Robinson's algorithm with the substitution applied lazily: each equation is
compared under the substitution built so far, a variable is bound to the other side unless it
occurs there, and `σ.bind x u` applies the new binding to every earlier one. Whatever it
returns equates every equation it was given (`unifyEqs_sound`), so the reference `m_unif`
returns a unifier of the two argument lists (`referenceUnif_sound`).

The substitutions it builds are idempotent (`Subst.Idem`): a binding's right-hand side is
already fixed by the substitution and free of the bound variable, and `Subst.Idem.bind` keeps
that. The result absorbs every substitution the run passes through (`σ.comp σ' = σ'`), which
is what carries an equation solved early to the end.
-/

namespace RuleInliner

/-- `σ` is idempotent: applying it twice is applying it once. -/
def Subst.Idem (σ : Subst) : Prop := σ.comp σ = σ

lemma Subst.comp_assoc (σ τ ρ : Subst) : (σ.comp τ).comp ρ = σ.comp (τ.comp ρ) :=
  funext fun v => Term.subst_subst τ ρ (σ v)

lemma Subst.bind_eq (σ : Subst) (x : Nat) (u : Term) :
    σ.bind x u = σ.comp fun w => if w = x then u else .var w := rfl

lemma Term.occurs_eq_true_iff {x : Nat} : ∀ {t : Term}, t.occurs x = true ↔ x ∈ t.vars
  | .var i => by simp [Term.occurs, Term.vars, eq_comm]
  | .sym _ => by simp [Term.occurs, Term.vars]
  | .app s t => by simp [Term.occurs, Term.vars, Term.occurs_eq_true_iff]

/-- A substitution that fixes a term fixes each of its variables. -/
lemma Term.subst_var_of_subst_eq_self {σ : Subst} : ∀ {t : Term}, t.subst σ = t →
    ∀ w ∈ t.vars, σ w = .var w
  | .var _, h, _, hw => by obtain rfl := List.mem_singleton.mp hw; exact h
  | .sym _, _, _, hw => absurd hw (List.not_mem_nil _)
  | .app s t, h, w, hw => by
    simp only [Term.subst, Term.app.injEq] at h
    rcases List.mem_append.mp hw with hw | hw
    · exact Term.subst_var_of_subst_eq_self h.1 w hw
    · exact Term.subst_var_of_subst_eq_self h.2 w hw

/-- Binding a variable that does not occur changes nothing. -/
lemma Term.subst_bind_of_not_mem {x : Nat} {u t : Term} (hx : x ∉ t.vars) :
    (t.subst fun w => if w = x then u else .var w) = t :=
  (Term.subst_congr fun w hw => if_neg fun (h : w = x) => hx (h ▸ hw)).trans (Term.subst_var t)

namespace Subst.Idem

variable {σ : Subst} (hσ : σ.Idem)
include hσ

lemma subst_subst (t : Term) : (t.subst σ).subst σ = t.subst σ := by
  rw [Term.subst_subst, hσ]

/-- The variables of a term `σ` returns are fixed by `σ`. -/
lemma var_of_mem {v w : Nat} (hw : w ∈ (σ v).vars) : σ w = .var w :=
  Term.subst_var_of_subst_eq_self (hσ.subst_subst (.var v)) w hw

/-- Binding `x` to a term fixed by `σ` and free of `x` keeps the substitution idempotent. -/
lemma bind {x : Nat} {u : Term} (hu : u.subst σ = u) (hx : x ∉ u.vars) : (σ.bind x u).Idem := by
  set ρ : Subst := fun w => if w = x then u else .var w
  have hρ : ∀ v, ∀ w ∈ (σ v).vars, (ρ.comp (σ.comp ρ)) w = ρ w := fun v w hw => by
    by_cases hwx : w = x
    · simp only [Subst.comp, ρ, if_pos hwx, ← Term.subst_subst, hu]
      exact Term.subst_bind_of_not_mem hx
    · simp only [Subst.comp, ρ, if_neg hwx, Term.subst, hσ.var_of_mem hw]
  show (σ.comp ρ).comp (σ.comp ρ) = σ.comp ρ
  rw [Subst.comp_assoc]
  exact funext fun v => Term.subst_congr (hρ v)

/-- What absorbs a binding step of `σ` absorbs `σ`. -/
lemma comp_eq_of_comp {ρ σ' : Subst} (h : (σ.comp ρ).comp σ' = σ') : σ.comp σ' = σ' := by
  rw [← h, ← Subst.comp_assoc, ← Subst.comp_assoc, hσ]

end Subst.Idem

/-- If `σ'` absorbs `σ`, what `σ` equates `σ'` equates. -/
lemma subst_eq_of_comp {σ σ' : Subst} (h : σ.comp σ' = σ') {s t : Term}
    (hst : s.subst σ = t.subst σ) : s.subst σ' = t.subst σ' := by
  rw [← h, ← Term.subst_subst, hst, Term.subst_subst]

/-- A binding step `x ↦ u` of an idempotent `σ`, for an equation one side of which `σ` maps to
`x` and the other to `u`: the result of the rest of the run equates it and absorbs `σ`. -/
lemma unifyEqs_sound_bind {σ σ' : Subst} (hσ : σ.Idem) {x : Nat} {u s t : Term}
    (hs : s.subst σ = .var x) (ht : t.subst σ = u) (hx : x ∉ u.vars)
    (h : (σ.bind x u).comp σ' = σ') : σ.comp σ' = σ' ∧ s.subst σ' = t.subst σ' := by
  have hu : u.subst σ = u := ht ▸ hσ.subst_subst t
  refine ⟨hσ.comp_eq_of_comp h, subst_eq_of_comp h ?_⟩
  rw [Subst.bind_eq, ← Term.subst_subst, ← Term.subst_subst, hs, ht]
  simp only [Term.subst, if_pos rfl]
  exact (Term.subst_bind_of_not_mem hx).symm

/-- Whatever `unifyEqs` returns from an idempotent substitution absorbs it and equates every
equation. -/
lemma unifyEqs_sound : ∀ {n : Nat} {eqs : List (Term × Term)} {σ σ' : Subst}, σ.Idem →
    unifyEqs n eqs σ = some σ' → σ.comp σ' = σ' ∧ ∀ e ∈ eqs, e.1.subst σ' = e.2.subst σ'
  | 0, _, _, _, _, h => by cases h
  | n + 1, [], σ, σ', hσ, h => by
    cases h
    exact ⟨hσ, fun _ h => absurd h (List.not_mem_nil _)⟩
  | n + 1, (s, t) :: eqs, σ, σ', hσ, h => by
    have hcons : ∀ {σ₁ : Subst}, σ₁.comp σ' = σ' → s.subst σ' = t.subst σ' →
        (∀ e ∈ eqs, e.1.subst σ' = e.2.subst σ') →
        σ₁.comp σ' = σ' ∧ ∀ e ∈ (s, t) :: eqs, e.1.subst σ' = e.2.subst σ' :=
      fun h₁ hst heqs => ⟨h₁, List.forall_mem_cons.mpr ⟨hst, heqs⟩⟩
    rw [unifyEqs] at h
    split at h
    · -- two variables
      rename_i x y hs ht
      split_ifs at h with hxy
      · obtain ⟨h₁, heqs⟩ := unifyEqs_sound hσ h
        exact hcons h₁ (subst_eq_of_comp h₁ (hs.trans (hxy ▸ ht.symm))) heqs
      · have hx : x ∉ (Term.var y).vars := by simpa [Term.vars] using hxy
        obtain ⟨h₁, heqs⟩ := unifyEqs_sound (hσ.bind (ht ▸ hσ.subst_subst t) hx) h
        obtain ⟨h₂, hst⟩ := unifyEqs_sound_bind hσ hs ht hx h₁
        exact hcons h₂ hst heqs
    · -- a variable on the left
      rename_i x hs _
      split_ifs at h with hocc
      have hx : x ∉ (t.subst σ).vars := fun hx => hocc (Term.occurs_eq_true_iff.mpr hx)
      obtain ⟨h₁, heqs⟩ := unifyEqs_sound (hσ.bind (hσ.subst_subst t) hx) h
      obtain ⟨h₂, hst⟩ := unifyEqs_sound_bind hσ hs rfl hx h₁
      exact hcons h₂ hst heqs
    · -- a variable on the right
      rename_i x ht _ _
      split_ifs at h with hocc
      have hx : x ∉ (s.subst σ).vars := fun hx => hocc (Term.occurs_eq_true_iff.mpr hx)
      obtain ⟨h₁, heqs⟩ := unifyEqs_sound (hσ.bind (hσ.subst_subst s) hx) h
      obtain ⟨h₂, hst⟩ := unifyEqs_sound_bind hσ ht rfl hx h₁
      exact hcons h₂ hst.symm heqs
    · -- two symbols
      rename_i f g hs ht
      split_ifs at h with hfg
      obtain ⟨h₁, heqs⟩ := unifyEqs_sound hσ h
      exact hcons h₁ (subst_eq_of_comp h₁ (hs.trans (hfg ▸ ht.symm))) heqs
    · -- two applications
      rename_i s₁ s₂ t₁ t₂ hs ht
      obtain ⟨h₁, heqs⟩ := unifyEqs_sound hσ h
      simp only [List.forall_mem_cons] at heqs
      refine hcons h₁ ?_ heqs.2.2
      rw [← h₁, ← Term.subst_subst, ← Term.subst_subst, hs, ht, Term.subst, Term.subst, heqs.1,
        heqs.2.1]
    · cases h

lemma map_eq_map_of_forall_zip {α β γ : Type} {f : α → γ} {g : β → γ} :
    ∀ {as : List α} {bs : List β}, as.length = bs.length → (∀ e ∈ as.zip bs, f e.1 = g e.2) →
      as.map f = bs.map g
  | [], [], _, _ => rfl
  | a :: as, b :: bs, hlen, h => by
    simp only [List.zip_cons_cons, List.forall_mem_cons] at h
    rw [List.map_cons, List.map_cons, h.1,
      map_eq_map_of_forall_zip (Nat.succ.inj hlen) h.2]

/-- What the reference `m_unif` returns equates the two argument lists, the second shifted by
the variable count. -/
theorem referenceUnif_sound {varCnt : Nat} {as bs : List Term} {σ : Subst × Subst}
    (h : referenceUnif varCnt as bs = some σ) :
    as.map (Term.subst σ.1) = bs.map (Term.subst σ.2) := by
  unfold referenceUnif at h
  split_ifs at h with hlen
  obtain ⟨σ', hσ', rfl⟩ := Option.map_eq_some'.mp h
  have hidem : Subst.Idem Term.var := funext fun v => rfl
  refine map_eq_map_of_forall_zip (not_not.mp hlen) fun e he => ?_
  obtain ⟨a, b, he', rfl⟩ : ∃ a b, (a, b) ∈ as.zip bs ∧ e = (a, b) := ⟨e.1, e.2, he, rfl⟩
  have := (unifyEqs_sound hidem hσ').2 (a, b.subst fun v => .var (v + varCnt))
    (by rw [List.zip_map_right]; exact List.mem_map_of_mem (Prod.map id _) he')
  rw [this, Term.subst_subst]
  rfl

end RuleInliner
