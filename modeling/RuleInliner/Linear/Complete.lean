import RuleInliner.Complete

/-!
# Linear inlining loses no atom of a kept predicate

`Sound.lean` shows that the rules the pass returns derive nothing their input does not. This
module shows the converse for `inline_linear` on the predicates whose rules `add_rule` never
lets the driver remove, output predicates and predicates with facts: on them, what
`inline_linear` returns derives exactly what its input derives (`inlineLinear_complete`).

A pass of the driver's `while (true)` that goes on replaces the target `acc[i] = H :- t` by its
resolvent with the source `acc[j]`, and drops the source when the tail query found one position
(`linearStep_true`). On the rules at each position, such a step loses no atom but instances of
the source's head (`derives_of_resolve`), by induction on the derivation before the step:
* an instance of `t` comes from the source alone, since the head query found `j` alone
  (`derives_source`), so the resolvent produces the target's instance (`derives_resolvent`);
* a positive atom of any other rule is no instance of the source's head once the source goes,
  since the tail query then found the target's atom alone.
The queries read the visitors, which hold exactly the valid rules (`LinearState.Registered`), so
they report what the step needs (`Registered.derives_linearStep`), and `can_remove` is set only
for rules of neither kind of kept predicate (`LinearState.Removable`). `linearDriver_keeps` lifts
a relation every pass keeps to the whole driver. When nothing was done, every position is still
valid, and the rules returned, `acc` itself, are the valid ones.

The contracts are those of bulk inlining but the one on quantifiers, since a resolvent is read
here through its instances only, and that of `Finish.lean` on dense variables, which keeps the
visitors in step with the rules.
-/

namespace RuleInliner

variable {T : Theory} {F N : Interp} {ctx : Context}

/-! ## Unifiable atoms -/

lemma le_foldr_max {l : List Nat} {v : Nat} (h : v ∈ l) : v ≤ l.foldr max 0 :=
  List.le_max_of_le h le_rfl

/-- With a complete `m_unif`, two atoms with a common instance are unifiable. -/
lemma Context.unifiable_of_instances (hcomp : ctx.UnifierComplete) {a b : Atom} {θ₁ θ₂ : Subst}
    (h : a.subst θ₁ = b.subst θ₂) : ctx.unifiable a b = true := by
  obtain ⟨hp, hargs⟩ := Atom.subst_eq_subst_iff.mp h
  have hbound : ∀ t ∈ a.args ++ b.args, ∀ v ∈ t.vars, v < (a.vars ++ b.vars).foldr max 0 + 1 :=
    fun t ht v hv => Nat.lt_succ_of_le (le_foldr_max (by
      rcases List.mem_append.mp ht with ht | ht
      · exact List.mem_append_left _ (List.mem_flatMap.mpr ⟨t, ht, hv⟩)
      · exact List.mem_append_right _ (List.mem_flatMap.mpr ⟨t, ht, hv⟩)))
  obtain ⟨σ, -, hσ, -⟩ := hcomp _ _ _ hbound θ₁ θ₂ hargs
  rw [Context.unifiable, Context.unifyAtoms, if_pos hp, hσ]
  rfl

/-! ## What `try_to_inline_rule` returns -/

/-- The atom `try_to_inline_rule` resolves on has an instance in common with the source's head. -/
lemma tryToInlineRule_equates (hsound : ctx.UnifierSound) {cv : Converters} {tgt src res : Rule}
    {i : Nat} (h : (tryToInlineRule ctx cv tgt src i).1 = some res) :
    ∃ θ₁ θ₂, tgt.normVars.pos[i]?.map (Atom.subst θ₁) = some (src.head.subst θ₂) := by
  rw [tryToInlineRule_fst] at h
  split_ifs at h
  obtain ⟨σ, hσ, -⟩ := Option.bind_eq_some.mp h
  exact ⟨σ.1, σ.2, unifyRules_equates hsound hσ⟩

/-- The head of what `rule_unifier::apply` builds is an instance of the target's head. -/
lemma applyUnifier_head {σ : Subst × Subst} {tgt src res : Rule} {i : Nat}
    (h : applyUnifier ctx σ tgt i src = some res) : ∃ θ, res.head = tgt.head.subst θ := by
  simp only [applyUnifier, Option.map_eq_some'] at h
  obtain ⟨s, -, rfl⟩ := h
  exact ⟨_, by split <;> exact ((Atom.subst_subst _ _ _).trans (Atom.subst_subst _ _ _))⟩

/-- The head of a resolvent is an instance of the target's head. -/
lemma tryToInlineRule_head {cv : Converters} {tgt src res : Rule} {i : Nat}
    (h : (tryToInlineRule ctx cv tgt src i).1 = some res) : ∃ θ, res.head = tgt.head.subst θ := by
  rw [tryToInlineRule_fst] at h
  split_ifs at h
  obtain ⟨σ, -, h⟩ := Option.bind_eq_some.mp h
  obtain ⟨θ, hθ⟩ := applyUnifier_head h
  exact ⟨_, hθ.trans (Atom.subst_subst _ _ _)⟩

/-- When `try_to_inline_rule` returns a resolvent, every instance of the target whose atom `i`
is an instance of the source's head, the rest of both bodies holding, is matched by an instance
of the resolvent with the same head whose body holds. -/
lemma tryToInlineRule_instance {M : Interp} (hctx : ctx.PreservesMeaning T) (hsound : ctx.UnifierSound)
    (hcomp : ctx.UnifierComplete) {cv : Converters} {tgt src res : Rule} {i : Nat} {ν₁ ν₂ : Subst}
    (hres : (tryToInlineRule ctx cv tgt src i).1 = some res)
    (hatom : tgt.pos[i]?.map (Atom.subst ν₁) = some (src.head.subst ν₂))
    (ht : (tgt.erasePos i).Body T N M ν₁) (hs : src.Body T N M ν₂) :
    ∃ μ, res.head.subst μ = tgt.head.subst ν₁ ∧ res.Body T N M μ := by
  obtain ⟨σ, hσ, η, hb, hh⟩ := resolve_of_instances (Context.mostGeneral_of hsound hcomp) hatom ht hs
  rw [tryToInlineRule_fst] at hres
  split_ifs at hres
  rw [hσ, Option.some_bind] at hres
  obtain ⟨μ, hμ, hhμ⟩ := (applyUnifier_equiv hctx hres).2 N M η hb
  exact ⟨μ, hhμ.trans hh, hμ⟩

/-! ## One resolution step on the valid rules -/

section Resolve

variable {V V' : RuleSet} {reg reg' : Nat → Option Rule} {i j : Nat} {r r₂ rlRes : Rule} {t : Atom}
  {del : Prop} [Decidable del] {cv : Converters} {facts : List Pred}

/-- When the source `r₂` is the only rule of `V` whose head has an instance in common with `t`,
and no fact lies over `t`'s predicate, every instance of `t` that `V` derives is the head of an
instance of `r₂` whose body `V` derives. -/
lemma derives_source (hF : ∀ a, F a → a.pred ∈ facts) (ht : t.pred ∉ facts)
    (honly : ∀ c ∈ V, ∀ θ₁ θ₂, t.subst θ₁ = c.head.subst θ₂ → c = r₂) {ν : Subst}
    (hd : Derives T F V N (t.subst ν)) :
    ∃ μ, r₂.head.subst μ = t.subst ν ∧ r₂.Body T N (Derives T F V N) μ := by
  generalize hb : t.subst ν = b at hd
  cases hd with
  | fact hf =>
    subst hb
    exact absurd (hF _ hf) ht
  | rule hc hpos hneg hint =>
    obtain rfl := honly _ hc _ _ hb
    exact ⟨_, rfl, hpos, hneg, hint⟩

/-- An instance of the target `H :- t` whose atom is the head of an instance of the source with a
body `V` derives is produced by the resolvent, when `V` holds it. -/
lemma derives_resolvent (hctx : ctx.PreservesMeaning T) (hsound : ctx.UnifierSound)
    (hcomp : ctx.UnifierComplete) (hres : (tryToInlineRule ctx cv r r₂ 0).1 = some rlRes)
    (hmem : rlRes ∈ V) (hpos : r.pos = [t]) (hneg : r.neg = []) {ν μ : Subst}
    (hint : ∀ c ∈ r.interp, T (c.subst ν)) (heq : r₂.head.subst μ = t.subst ν)
    (hb : r₂.Body T N (Derives T F V N) μ) : Derives T F V N (r.head.subst ν) := by
  obtain ⟨μ', hh, hbody⟩ := tryToInlineRule_instance hctx hsound hcomp hres
    (by rw [hpos, heq]; rfl) ⟨by simp [Rule.erasePos, hpos], by simp [Rule.erasePos, hneg], hint⟩ hb
  exact hh ▸ Derives.closed hmem hbody

/-- One resolution step of the linear driver, on the rule `reg` and `reg'` give each position
before and after it: the resolvent `rlRes` of the target `H :- t` at `i` with the source `r₂` at
`j` takes the target's place, and the source goes when `del` is set. If no fact lies over `t`'s
predicate, no other rule has a head with an instance in common with `t`, and, when the source
goes, no positive tail atom of a rule other than the target has an instance in common with the
source's head, then every atom derived before is derived after, or is the head of an instance
of the source whose body is derived after. -/
lemma derives_of_resolve (hctx : ctx.PreservesMeaning T) (hsound : ctx.UnifierSound)
    (hcomp : ctx.UnifierComplete) (hV : ∀ c, c ∈ V ↔ ∃ k, reg k = some c)
    (hV' : ∀ c, c ∈ V' ↔ ∃ k, reg' k = some c)
    (hreg' : ∀ k, reg' k = if k = i then some rlRes else if k = j ∧ del then none else reg k)
    (hi : reg i = some r) (hj : reg j = some r₂) (hij : i ≠ j) (hpos : r.pos = [t])
    (hneg : r.neg = []) (ht : t.pred ∉ facts) (hF : ∀ a, F a → a.pred ∈ facts)
    (hhead : ∀ k c, reg k = some c → ∀ θ₁ θ₂, t.subst θ₁ = c.head.subst θ₂ → k = j)
    (htail : del → ∀ k c, reg k = some c → k ≠ i → ∀ a ∈ c.pos, ∀ θ₁ θ₂,
      r₂.head.subst θ₁ ≠ a.subst θ₂)
    (hres : (tryToInlineRule ctx cv r r₂ 0).1 = some rlRes) {b : Atom} (hd : Derives T F V N b) :
    Derives T F V' N b ∨ ∃ μ, r₂.head.subst μ = b ∧ r₂.Body T N (Derives T F V' N) μ := by
  have hkeep : ∀ k c, reg k = some c → k ≠ i → (k = j → ¬ del) → c ∈ V' :=
    fun k c hc hki hkj => (hV' c).2 ⟨k, by rw [hreg', if_neg hki, if_neg fun h => hkj h.1 h.2, hc]⟩
  -- the source is the only rule left whose head meets `t`
  have honly : ∀ c ∈ V', ∀ θ₁ θ₂, t.subst θ₁ = c.head.subst θ₂ → c = r₂ := by
    intro c hc θ₁ θ₂ h
    obtain ⟨k, hk⟩ := (hV' c).1 hc
    rw [hreg'] at hk
    split_ifs at hk
    · obtain rfl := Option.some.inj hk
      obtain ⟨θ, hθ⟩ := tryToInlineRule_head hres
      rw [hθ, Atom.subst_subst] at h
      exact absurd (hhead i r hi _ _ h) hij
    · obtain rfl := hhead k c hk _ _ h
      exact Option.some.inj (hk.symm.trans hj)
  induction hd with
  | fact hf => exact .inl (.fact hf)
  | @rule c ν hc _ hneg' hint' ih =>
    obtain ⟨k, hk⟩ := (hV c).1 hc
    by_cases hki : k = i
    · -- the target: its atom now comes from the source, and the resolvent stands for both
      subst hki
      obtain rfl := Option.some.inj (hk.symm.trans hi)
      obtain ⟨μ, heq, hb⟩ := (ih t (by simp [hpos])).elim (derives_source hF ht honly) id
      exact .inl (derives_resolvent hctx hsound hcomp hres ((hV' _).2 ⟨k, by rw [hreg', if_pos rfl]⟩)
        hpos hneg hint' heq hb)
    · -- any other rule: its positive atoms are derived after the step
      have hall : ∀ a ∈ c.pos, Derives T F V' N (a.subst ν) := fun a ha =>
        (ih a ha).elim id fun ⟨μ, heq, hb⟩ => by
          by_cases hdel : del
          · exact absurd heq (htail hdel k c hk hki a ha μ ν)
          · exact heq ▸ Derives.closed (hkeep j r₂ hj (Ne.symm hij) fun _ => hdel) hb
      by_cases hkj : k = j ∧ del
      · obtain ⟨rfl, -⟩ := hkj
        obtain rfl := Option.some.inj (hk.symm.trans hj)
        exact .inr ⟨ν, rfl, hall, hneg', hint'⟩
      · exact .inl (.rule (hkeep k c hk hki fun h hd => hkj ⟨h, hd⟩) hall hneg' hint')

end Resolve

/-! ## The rule set the driver builds -/

lemma validRules_eq_some {acc : List Rule} {valid : List Bool} {k : Nat} {c : Rule} :
    validRules acc valid k = some c ↔ valid[k]! = true ∧ acc[k]! = c := by
  unfold validRules; split <;> simp [*]


lemma mem_validFilter : ∀ {acc : List Rule} {valid : List Bool}, valid.length = acc.length →
    ∀ {c : Rule}, c ∈ ((acc.zip valid).filter (·.2)).map (·.1) ↔ ∃ k, validRules acc valid k = some c
  | [], [], _, c => by simp [validRules_eq_some]
  | a :: acc, v :: valid, h, c => by
    have ih := @mem_validFilter acc valid (by simpa using h) c
    have hsucc : ∀ k, validRules (a :: acc) (v :: valid) (k + 1) = validRules acc valid k :=
      fun k => by simp [validRules]
    rw [List.zip_cons_cons, List.filter_cons]
    constructor
    · intro hc
      have h' : (v = true ∧ a = c) ∨ c ∈ ((acc.zip valid).filter (·.2)).map (·.1) := by
        split at hc
        · rw [List.map_cons, List.mem_cons] at hc
          exact hc.imp (fun hc => ⟨‹_›, hc.symm⟩) id
        · exact .inr hc
      rcases h' with ⟨hv, rfl⟩ | hc
      · exact ⟨0, validRules_eq_some.mpr ⟨by simpa using hv, by simp⟩⟩
      · obtain ⟨k, hk⟩ := ih.mp hc
        exact ⟨k + 1, (hsucc k).trans hk⟩
    · rintro ⟨_ | k, hk⟩
      · obtain ⟨hv, rfl⟩ := validRules_eq_some.mp hk
        simp only [List.getElem!_cons_zero] at hv
        simp [hv]
      · have := ih.mpr ⟨k, (hsucc k).symm.trans hk⟩
        split <;> simp [this]

lemma validFilter_replicate : ∀ acc : List Rule,
    ((acc.zip (List.replicate acc.length true)).filter (·.2)).map (·.1) = acc
  | [] => rfl
  | a :: acc => by simp [List.replicate_succ, validFilter_replicate acc]


namespace LinearState

/-- The rule set `inline_linear` builds at the end: the rules at the valid positions, in order. -/
def ruleSet (s : LinearState) : RuleSet := ((s.acc.zip s.valid).filter (·.2)).map (·.1)

lemma mem_ruleSet {s : LinearState} (hlen : s.valid.length = s.acc.length) {c : Rule} :
    c ∈ s.ruleSet ↔ ∃ k, validRules s.acc s.valid k = some c :=
  mem_validFilter hlen

/-- `can_remove` is set only at positions whose rule defines neither an output predicate nor a
predicate with facts, as `add_rule` leaves it. -/
def Removable (ctx : Context) (facts : List Pred) (s : LinearState) : Prop :=
  ∀ k < s.acc.length, s.canRemove[k]! = true →
    (ctx.isOutputPredicate s.acc[k]!.decl || decide (s.acc[k]!.decl ∈ facts)) = false

lemma decl_getElem!_set {l : List Rule} {i k : Nat} {x : Rule} (hx : x.decl = l[i]!.decl) :
    (l.set i x)[k]!.decl = l[k]!.decl := by
  rw [getElem!_set]
  split_ifs with h
  · rw [hx, h.1]
  · rfl

variable {ctx : Context} {facts : List Pred} {ab : Bool} {i : Nat}

lemma Removable.of_decl {s s' : LinearState} (h : s.Removable ctx facts)
    (hlen : s'.acc.length = s.acc.length) (hdecl : ∀ k : Nat, s'.acc[k]!.decl = s.acc[k]!.decl)
    (hcr : ∀ k : Nat, s'.canRemove[k]! = true → s.canRemove[k]! = true) : s'.Removable ctx facts :=
  fun k hk hc => by rw [hdecl]; exact h k (hlen ▸ hk) (hcr k hc)

/-- A pass of the loop body keeps `Removable`: it replaces a rule only by one of the same head
predicate, and only clears `can_remove`. -/
lemma Removable.linearStep {s s' : LinearState} {b : Bool} (h : s.Removable ctx facts)
    (hs : RuleInliner.linearStep ctx facts ab i s = .ok (b, s')) : s'.Removable ctx facts := by
  cases b
  · rcases linearStep_false hs with rfl | rfl
    · exact h
    · exact h.of_decl (List.length_set ..) (fun _ => decl_getElem!_set (Rule.normVars_decl _))
        fun _ => id
  · obtain ⟨j, rlRes, cv', -, -, -, -, -, -, -, htry, hacc, -, hcr, -⟩ := linearStep_true hs
    obtain ⟨-, -, hd, -⟩ := tryToInlineRule_shape htry
    rw [List.set_set] at hacc
    refine h.of_decl (by rw [hacc, List.length_set]) (fun _ => by rw [hacc]; exact decl_getElem!_set hd)
      fun k hk => ?_
    rw [hcr] at hk
    split_ifs at hk
    · rw [getElem!_set] at hk
      split_ifs at hk
      exact hk
    · exact hk

lemma Registered.validRules_rename {s : LinearState} (h : s.Registered ctx facts) (i : Nat) :
    validRules (s.acc.set i s.acc[i]!.normVars) s.valid = validRules s.acc s.valid := by
  by_cases hv : s.valid[i]! = true
  · rw [h.normal i hv, set_getElem!_self]
  · funext k
    by_cases hk : k = i
    · subst hk; simp [validRules, hv]
    · simp [validRules, getElem!_set, Ne.symm hk]

/-- The rules at the valid positions after `acc[i]` takes `x` and, when `del` holds, `valid[j]`
is cleared. -/
lemma validRules_resolve {acc : List Rule} {valid : List Bool} {i j : Nat} (hi : i < acc.length)
    (hvi : valid[i]! = true) (hj : j < valid.length) (hij : i ≠ j) (x : Rule) (del : Prop)
    [Decidable del] (k : Nat) :
    validRules (acc.set i x) (if del then valid.set j false else valid) k =
      if k = i then some x else if k = j ∧ del then none else validRules acc valid k := by
  have hupd := validRules_set_acc hi hvi x
  by_cases hdel : del
  · rw [if_pos hdel, validRules_set_valid (by simpa using hj), hupd]
    by_cases hki : k = i
    · subst hki; simp [Function.update_apply, hij]
    · simp [Function.update_apply, hki, hdel]
  · rw [if_neg hdel, hupd]
    simp [Function.update_apply, hdel]

/-- A head query that found position `j` alone: every valid rule whose head has an instance in
common with the queried atom sits at `j`. -/
lemma Registered.eq_of_queryIndex_head {s : LinearState} (h : s.Registered ctx facts)
    (hcomp : ctx.UnifierComplete) {e : Atom} {j : Nat}
    (hq : queryIndex ctx s.headIndex s.headPositions e = [j]) {k : Nat} {c : Rule}
    (hk : validRules s.acc s.valid k = some c) {θ₁ θ₂ : Subst} (he : e.subst θ₁ = c.head.subst θ₂) :
    k = j := by
  obtain ⟨hvk, rfl⟩ := validRules_eq_some.mp hk
  have hc := h.count_queryIndex_head e k
  rw [hq, if_pos ⟨hvk, ctx.unifiable_of_instances hcomp he⟩] at hc
  simp only [List.count_cons, List.count_nil, beq_iff_eq] at hc
  split_ifs at hc with hjk
  · exact hjk.symm
  · omega

/-- A tail query that found one position, where a tail atom `t` of the valid rule at `i` unifies
with the queried atom: no positive atom of a valid rule at another position has an instance in
common with it. -/
lemma Registered.ne_of_queryIndex_tail {s : LinearState} (h : s.Registered ctx facts)
    (hcomp : ctx.UnifierComplete) {e : Atom}
    (hn : (queryIndex ctx s.tailIndex s.tailPositions e).length = 1) {i : Nat} {r : Rule}
    (hi : validRules s.acc s.valid i = some r) {t : Atom} (ht : t ∈ r.pos ++ r.neg)
    (hmeet : ctx.unifiable e t = true) {k : Nat} {c : Rule} (hk : validRules s.acc s.valid k = some c)
    (hki : k ≠ i) {a : Atom} (ha : a ∈ c.pos) (θ₁ θ₂ : Subst) : e.subst θ₁ ≠ a.subst θ₂ := by
  intro he
  obtain ⟨hvi, rfl⟩ := validRules_eq_some.mp hi
  obtain ⟨hvk, rfl⟩ := validRules_eq_some.mp hk
  obtain ⟨x, hx⟩ := List.length_eq_one.mp hn
  have hci := h.count_queryIndex_tail e i
  have hck := h.count_queryIndex_tail e k
  rw [hx, if_pos hvi] at hci
  rw [hx, if_pos hvk] at hck
  have h₁ := List.length_pos.mpr (List.ne_nil_of_mem (List.mem_filter.mpr ⟨ht, hmeet⟩))
  have h₂ := List.length_pos.mpr (List.ne_nil_of_mem (List.mem_filter.mpr
    ⟨List.mem_append_left s.acc[k]!.neg ha, ctx.unifiable_of_instances hcomp he⟩))
  simp only [List.count_cons, List.count_nil, beq_iff_eq] at hci hck
  split_ifs at hci hck <;> omega

section Complete

variable {T : Theory} {F N : Interp} (hctx : ctx.PreservesMeaning T)
  (hsound : ctx.UnifierSound) (hcomp : ctx.UnifierComplete) (hF : ∀ a, F a → a.pred ∈ facts)
include hctx hsound hcomp hF

/-- A pass of the loop body from a registered state loses no atom of a predicate whose rules
`add_rule` keeps from removal. -/
lemma Registered.derives_linearStep {s s' : LinearState} {b : Bool} (hreg : s.Registered ctx facts)
    (hrem : s.Removable ctx facts) (hs : RuleInliner.linearStep ctx facts ab i s = .ok (b, s'))
    {a : Atom} (ha : (ctx.isOutputPredicate a.pred || decide (a.pred ∈ facts)) = true)
    (hd : Derives T F s.ruleSet N a) : Derives T F s'.ruleSet N a := by
  cases b
  · -- a break: the valid rules are those before
    rcases linearStep_false hs with rfl | rfl
    · exact hd
    · refine hd.mono fun c hc => (mem_ruleSet (by simpa using hreg.length)).2 ?_
      rw [show validRules (s.acc.set i s.acc[i]!.normVars) s.valid = _ from hreg.validRules_rename i]
      exact (mem_ruleSet hreg.length).1 hc
  obtain ⟨j, rlRes, cv', hvi, hci, hq, hcj, hvj, hij, -, htry, hacc, hvalid, -, -⟩ :=
    linearStep_true hs
  rw [List.set_set] at hacc
  obtain ⟨t, hpos, hneg, htf, -⟩ := hreg.expand i hci
  have hi : i < s.acc.length := hreg.length ▸ lt_length_of_getElem! hvi
  have hj : j < s.valid.length := lt_length_of_getElem! hvj
  have hri : validRules s.acc s.valid i = some s.acc[i]! := validRules_eq_some.mpr ⟨hvi, rfl⟩
  have hrj : validRules s.acc s.valid j = some s.acc[j]! := validRules_eq_some.mpr ⟨hvj, rfl⟩
  set n := (queryIndex ctx s.tailIndex s.tailPositions s.acc[j]!.head).length
  have hlen' : s'.valid.length = s'.acc.length := by
    rw [hacc, hvalid]; split_ifs <;> simp [hreg.length]
  have hreg' (k : Nat) : validRules s'.acc s'.valid k = if k = i then some rlRes
      else if k = j ∧ n = 1 then none else validRules s.acc s.valid k := by
    rw [hacc, hvalid]
    exact validRules_resolve hi hvi hj hij rlRes _ k
  -- the atom `t` meets the source's head
  have hmeet : ctx.unifiable s.acc[j]!.head t = true := by
    obtain ⟨θ₁, θ₂, h⟩ := tryToInlineRule_equates hsound (congrArg Prod.fst htry)
    rw [hreg.normal i hvi, hpos] at h
    exact ctx.unifiable_of_instances hcomp (Option.some.inj h).symm
  have ht0 : s.acc[i]!.pos[0]! = t := by rw [hpos]; rfl
  rcases derives_of_resolve hctx hsound hcomp (fun _ => mem_ruleSet hreg.length)
    (fun _ => mem_ruleSet hlen') hreg' hri hrj hij hpos hneg htf hF
    (fun _ _ hk _ _ h => hreg.eq_of_queryIndex_head hcomp (ht0 ▸ hq) hk h)
    (fun hn _ _ hk hki _ ha => hreg.ne_of_queryIndex_tail hcomp hn hri (by simp [hpos]) hmeet hk hki ha)
    (congrArg Prod.fst htry) hd with h | ⟨μ, rfl, hb⟩
  · exact h
  · -- an instance of the source's head: the source is kept, or its predicate is removable
    by_cases hn1 : n = 1
    · exact absurd ((hrem j (hreg.length ▸ hj) hcj).symm.trans ha) Bool.false_ne_true
    · refine Derives.closed ((mem_ruleSet hlen').2 ⟨j, ?_⟩) hb
      rw [hreg', if_neg (Ne.symm hij), if_neg fun h => hn1 h.2]
      exact hrj

end Complete

end LinearState

/-! ## Runs of the driver -/

section Runs

variable {ctx : Context} {facts : List Pred} {ab : Bool} (Inv : LinearState → Prop)
  (Rel : LinearState → LinearState → Prop)
  (htrans : ∀ {s₁ s₂ s₃}, Rel s₁ s₂ → Rel s₂ s₃ → Rel s₁ s₃)
  (hstep : ∀ {i s b s'}, Inv s → linearStep ctx facts ab i s = .ok (b, s') → Inv s' ∧ Rel s s')
include htrans hstep

/-- A relation that every pass of the loop body keeps, from states with an invariant it also
keeps, holds between the first and the last state of the loop at a position. -/
lemma linearLoop_keeps {i : Nat} : ∀ {n : Nat} {s s' : LinearState}, Inv s →
    linearLoop ctx facts ab i n s = .ok s' → Inv s' ∧ Rel s s'
  | 0, _, _, _, h => by cases h
  | n + 1, s, s', hs, h => by
    rw [linearLoop] at h
    split at h
    · cases h
    · obtain ⟨h₁, r₁⟩ := hstep hs ‹_›
      obtain ⟨h₂, r₂⟩ := linearLoop_keeps h₁ h
      exact ⟨h₂, htrans r₁ r₂⟩
    · cases h
      exact hstep hs ‹_›

variable (hrefl : ∀ s, Rel s s)
include hrefl

/-- When the relation is also reflexive, it holds between the first and the last state of the
driver. -/
lemma linearDriver_keeps {fuel : Nat} : ∀ {is : List Nat} {s s' : LinearState}, Inv s →
    linearDriver ctx fuel facts ab is s = .ok s' → Inv s' ∧ Rel s s'
  | [], s, _, hs, h => by cases h; exact ⟨hs, hrefl s⟩
  | i :: is, s, s', hs, h => by
    rw [linearDriver] at h
    split at h
    · cases h
    · obtain ⟨h₁, r₁⟩ := linearLoop_keeps Inv Rel htrans hstep hs ‹_›
      obtain ⟨h₂, r₂⟩ := linearDriver_keeps h₁ h
      exact ⟨h₂, htrans r₁ r₂⟩

end Runs

namespace LinearState

variable {ctx : Context} {facts : List Pred} {ab : Bool} {i : Nat}

lemma Registered.of_linearStep (hkd : ctx.KeepsDense) {s s' : LinearState} {b : Bool}
    (h : s.Registered ctx facts) (hs : RuleInliner.linearStep ctx facts ab i s = .ok (b, s')) :
    s'.Registered ctx facts := by
  obtain ⟨b', s'', h', hr⟩ := h.step hkd ab i
  rw [hs] at h'
  cases h'
  exact hr

/-- A pass of the loop body that leaves `done_something` clear has cleared no `valid` flag. -/
lemma valid_of_linearStep {s s' : LinearState} {b : Bool}
    (hs : RuleInliner.linearStep ctx facts ab i s = .ok (b, s')) (hd : s'.doneSomething = false) :
    s'.valid = s.valid ∧ s.doneSomething = false := by
  cases b
  · rcases linearStep_false hs with rfl | rfl <;> exact ⟨rfl, hd⟩
  · obtain ⟨-, -, -, -, -, -, -, -, -, -, -, -, -, -, hdone, -⟩ := linearStep_true hs
    rw [hdone] at hd
    cases hd

/-- Registering the first `m` rules in turn leaves `can_remove` set only at the positions of
removable rules. -/
lemma removable_foldl_addRule {rules : RuleSet} {s₀ : LinearState}
    (h₀ : s₀.canRemove.length = rules.length) : ∀ m ≤ rules.length,
      ((List.range m).foldl (fun s i => s.addRule ctx facts rules[i]! i) s₀).canRemove.length =
        rules.length ∧
      ∀ k < m, ((List.range m).foldl (fun s i => s.addRule ctx facts rules[i]! i) s₀).canRemove[k]! =
        true → (ctx.isOutputPredicate rules[k]!.decl || decide (rules[k]!.decl ∈ facts)) = false
  | 0, _ => ⟨h₀, fun k hk => absurd hk (Nat.not_lt_zero k)⟩
  | m + 1, hm => by
    obtain ⟨hlen, hk⟩ := removable_foldl_addRule h₀ m (by omega)
    simp only [List.range_succ, List.foldl_append, List.foldl_cons, List.foldl_nil, addRule_canRemove]
    refine ⟨by split_ifs <;> simp [hlen], fun k hkm hc => ?_⟩
    rcases Nat.lt_succ_iff_lt_or_eq.mp hkm with hkm | rfl
    · refine hk k hkm ?_
      split_ifs at hc
      · rwa [getElem!_set, if_neg (by omega)] at hc
      · exact hc
    · split_ifs at hc with hp
      · rw [getElem!_set, if_pos ⟨rfl, by omega⟩] at hc
        cases hc
      · simpa using hp

lemma removable_linearInit (cv : Converters) (rules : RuleSet) :
    (linearInit ctx facts cv rules).Removable ctx facts := fun k hk hc => by
  rw [linearInit_acc] at hk ⊢
  exact (removable_foldl_addRule (List.length_replicate _ _) _ le_rfl).2 k hk hc

lemma ruleSet_linearInit (cv : Converters) (rules : RuleSet) :
    (linearInit ctx facts cv rules).ruleSet = rules := by
  rw [ruleSet, linearInit_acc, linearInit_valid, validFilter_replicate]

end LinearState

/-- With `m_unif` returning most general unifiers and the collaborators keeping instances and
dense variables, linear inlining on rules with dense variables loses no atom of a predicate whose
rules `add_rule` keeps from removal, an output predicate or one with facts, derived from a fact
base over `m_preds_with_facts`. -/
lemma inlineLinear_derives {T : Theory} {F N : Interp} {ctx : Context} {fuel : Nat} {st : Inliner}
    {rules : RuleSet} {out : RuleSet × Bool × Converters} (hctx : ctx.PreservesMeaning T)
    (hsound : ctx.UnifierSound) (hcomp : ctx.UnifierComplete) (hkd : ctx.KeepsDense)
    (hdense : ∀ r ∈ rules, r.DenseVars) (hF : ∀ a, F a → a.pred ∈ st.predsWithFacts)
    (h : inlineLinear ctx fuel st rules = .ok out) {a : Atom}
    (ha : (ctx.isOutputPredicate a.pred || decide (a.pred ∈ st.predsWithFacts)) = true)
    (hd : Derives T F rules N a) : Derives T F out.1 N a := by
  unfold inlineLinear at h
  dsimp only at h
  split at h
  · cases h
  rename_i s hs
  have hinit : (linearInit ctx st.predsWithFacts st.cv rules).Registered ctx st.predsWithFacts :=
    LinearState.registered_linearInit hdense st.cv
  -- every pass keeps the atoms of the kept predicates
  obtain ⟨⟨hreg, -⟩, hkeep⟩ := linearDriver_keeps
    (fun s => s.Registered ctx st.predsWithFacts ∧ s.Removable ctx st.predsWithFacts)
    (fun s s' => ∀ a : Atom,
      (ctx.isOutputPredicate a.pred || decide (a.pred ∈ st.predsWithFacts)) = true →
      Derives T F s.ruleSet N a → Derives T F s'.ruleSet N a)
    (fun h₁ h₂ a ha hd => h₂ a ha (h₁ a ha hd))
    (fun ⟨hr, hrm⟩ hst => ⟨⟨hr.of_linearStep hkd hst, hrm.linearStep hst⟩,
      fun _ ha hd => hr.derives_linearStep hctx hsound hcomp hF hrm hst ha hd⟩)
    (fun _ _ _ => id) ⟨hinit, LinearState.removable_linearInit _ _⟩ hs
  have hd' := hkeep a ha (by rwa [LinearState.ruleSet_linearInit])
  split_ifs at h with hdone <;> cases h
  · exact hd'
  · -- nothing was done: every position is still valid, and the rules returned are `acc`
    obtain ⟨-, hv⟩ := linearDriver_keeps (fun _ => True)
      (fun s s' => s'.doneSomething = false → s'.valid = s.valid ∧ s.doneSomething = false)
      (fun h₁₂ h₂₃ hd₃ => ⟨(h₂₃ hd₃).1.trans (h₁₂ (h₂₃ hd₃).2).1, (h₁₂ (h₂₃ hd₃).2).2⟩)
      (fun _ hst => ⟨trivial, LinearState.valid_of_linearStep hst⟩) (fun _ hd => ⟨rfl, hd⟩) trivial hs
    have hv₀ : s.valid = List.replicate rules.length true :=
      (hv (by simpa using hdone)).1.trans (linearInit_valid ..)
    have hlen : s.acc.length = rules.length := by rw [← hreg.length, hv₀, List.length_replicate]
    have hset : s.ruleSet = s.acc := by
      rw [LinearState.ruleSet, hv₀, ← hlen, validFilter_replicate]
    exact hset ▸ hd'

/-- With `m_unif` returning most general unifiers and the collaborators keeping instances and
dense variables, linear inlining on rules with dense variables loses no atom of a predicate whose
rules `add_rule` keeps from removal, an output predicate or one with facts: from every fact base
over `m_preds_with_facts`, negated atoms read in every `N`, what it returns derives such an atom
exactly when its input does. -/
theorem inlineLinear_complete {T : Theory} {F : Interp} {ctx : Context} {fuel : Nat} {st : Inliner}
    {rules : RuleSet} {out : RuleSet × Bool × Converters} (hctx : ctx.PreservesMeaning T)
    (hsound : ctx.UnifierSound) (hcomp : ctx.UnifierComplete) (hkd : ctx.KeepsDense)
    (hdense : ∀ r ∈ rules, r.DenseVars) (hF : ∀ a, F a → a.pred ∈ st.predsWithFacts)
    (h : inlineLinear ctx fuel st rules = .ok out) (N : Interp) (a : Atom)
    (ha : (ctx.isOutputPredicate a.pred || decide (a.pred ∈ st.predsWithFacts)) = true) :
    Derives T F out.1 N a ↔ Derives T F rules N a :=
  ⟨Derives.minimal (fun _ => .fact) ((resolutionClosed_closed hctx hsound N _).inlineLinear
    (fun _ hr _ => Derives.closed hr) h), inlineLinear_derives hctx hsound hcomp hkd hdense hF h ha⟩

lemma mguChainContext_keepsDense : mguChainContext.KeepsDense :=
  have h := Context.reference_keepsDense [⟨0, 1⟩] [⟨2, 1⟩] ⟨[]⟩
  ⟨h.1, h.2⟩

/-- On `Out(x) :- P(x)`, `P(x) :- B(x)` with facts for `B`, linear inlining returns, and what it
returns derives `Out(c)` exactly when the input does. -/
theorem inlineLinear_complete_chain :
    ∃ fuel out, inlineLinear mguChainContext fuel { Inliner.init with predsWithFacts := [⟨2, 1⟩] }
        chainRules = .ok out ∧
      (Derives (fun _ => True) (fun a => a.pred = ⟨2, 1⟩) out.1 (fun _ => False)
          ⟨⟨0, 1⟩, [.sym 0]⟩ ↔
        Derives (fun _ => True) (fun a => a.pred = ⟨2, 1⟩) chainRules (fun _ => False)
          ⟨⟨0, 1⟩, [.sym 0]⟩) := by
  have hdense : ∀ r ∈ chainRules, r.DenseVars := by decide
  obtain ⟨K, out, -, h⟩ := inlineLinear_finishes mguChainContext_keepsDense rfl hdense
    { Inliner.init with predsWithFacts := [⟨2, 1⟩] }
  exact ⟨K, out, h K le_rfl, inlineLinear_complete (mguChainContext_preservesMeaning _)
    mguChainContext_unifierSound mguChainContext_unifierComplete mguChainContext_keepsDense
    hdense (fun a ha => by rw [ha]; exact List.mem_singleton_self _) (h K le_rfl) _ _ rfl⟩

end RuleInliner
