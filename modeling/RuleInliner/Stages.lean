import RuleInliner.Bulk.Termination
import RuleInliner.Linear.Termination
import RuleInliner.Pass

/-!
# What every stage keeps

Every rule `operator()` returns is a rule of its input or is built from such rules by
`try_to_inline_rule`, which renumbers its target and resolves it with a source rule. A
property of rules that renumbering keeps and that a resolvent of two rules with it has
(`ResolutionClosed`) therefore holds of every rule of every set the pass builds from rules with
it: of the resolvents `transform_rule` collects (`ResolutionClosed.transformRuleLoop`), of
`m_inlined_rules` after `plan_inlining` (`ResolutionClosed.planInlining`), of the rules eager and
linear inlining return (`ResolutionClosed.doEagerInlining`, `ResolutionClosed.inlineLinear`),
and of the result of the whole pass (`ResolutionClosed.run`).

The linear driver reads `acc[i]` and `acc[j]` with `operator[]`; the model's `getElem!` gives the
default rule out of range, which need not have the property. The driver only resolves with a
`j` whose `valid[j]` is set, and `valid` is as long as `acc` all along, so both reads are in
range whenever they matter.

The lemmas are partial: they speak of the runs that return.
-/

namespace RuleInliner

/-- A property of rules that renumbering keeps and that every resolvent `try_to_inline_rule`
builds from a target and a source with it has. -/
structure ResolutionClosed (ctx : Context) (P : Rule → Prop) : Prop where
  normVars : ∀ {r : Rule}, P r → P r.normVars
  resolve : ∀ {cv cv' : Converters} {tgt src res : Rule} {i : Nat},
    tryToInlineRule ctx cv tgt src i = (some res, cv') → P tgt → P src → P res

lemma mem_set_cases {α : Type} {l : List α} {k : Nat} {x t : α} (h : t ∈ l.set k x) :
    t ∈ l ∨ (k < l.length ∧ t = x) := by
  by_cases hk : k < l.length
  · exact (List.mem_or_eq_of_mem_set h).imp id (⟨hk, ·⟩)
  · exact .inl (List.set_eq_of_length_le (Nat.le_of_not_lt hk) ▸ h)

lemma getElem!_mem {α : Type} [Inhabited α] {l : List α} {k : Nat} (hk : k < l.length) :
    l[k]! ∈ l :=
  getElem!_pos l k hk ▸ List.getElem_mem hk

lemma lt_length_of_getElem!_eq_true {l : List Bool} {k : Nat} (h : l[k]! = true) : k < l.length := by
  by_contra hk
  rw [getElem!_neg l k hk] at h
  cases h

namespace ResolutionClosed

variable {ctx : Context} {P : Rule → Prop} (hP : ResolutionClosed ctx P)
include hP

lemma inlineAll {r : Rule} {i : Nat} {cv : Converters} {srcs : List Rule} (hr : P r)
    (hsrcs : ∀ s ∈ srcs, P s) : ∀ c ∈ (RuleInliner.inlineAll ctx r i cv srcs).1, P c := fun _ hc => by
  obtain ⟨s, hs, _, _, htry⟩ := mem_inlineAll hc
  exact hP.resolve htry hr (hsrcs s hs)

/-! ## Planning and bulk inlining -/

section Bulk
variable {st : Inliner} {self : Bool}

lemma transformRuleLoop (hinl : self = false → ∀ s ∈ st.inlinedRules, P s) :
    ∀ {n todo tgt modified cv out}, (∀ r ∈ todo, P r) → (∀ s ∈ tgt, P s) →
      RuleInliner.transformRuleLoop ctx st self n todo tgt modified cv = .ok out → ∀ s ∈ out.1, P s
  | 0, _, _, _, _, _, _, _, h => by cases h
  | n + 1, [], tgt, _, _, _, _, htgt, h => by cases h; exact htgt
  | n + 1, r :: todo, tgt, modified, cv, out, htodo, htgt, h => by
    have hr := htodo r (List.mem_cons_self _ _)
    have htodo' := fun s hs => htodo s (List.mem_cons_of_mem r hs)
    rcases @transformRuleLoop_cons_cases ctx st self r with ⟨-, e⟩ | ⟨-, -, e⟩ | ⟨-, i, hi, -, e⟩ <;>
      rw [e] at h
    · -- dropped
      exact transformRuleLoop hinl htodo' htgt h
    · -- moved to the target
      refine transformRuleLoop hinl htodo' (fun s hs => ?_) h
      rcases List.mem_append.mp hs with hs | hs
      · exact htgt s hs
      · exact List.mem_singleton.mp hs ▸ hr
    · -- replaced by its resolvents
      refine transformRuleLoop hinl (fun s hs => ?_) htgt h
      rcases List.mem_append.mp hs with hs | hs
      · refine hP.inlineAll hr (fun s hs => ?_) s (List.mem_reverse.mp hs)
        replace hs := (List.mem_filter.mp hs).1
        cases self
        · exact hinl rfl s hs
        · exact htgt s hs
      · exact htodo' s hs

lemma transformRules (hinl : ∀ s ∈ st.inlinedRules, P s) {fuel : Nat} :
    ∀ {rs tgt done cv out}, (∀ r ∈ rs, P r) → (∀ s ∈ tgt, P s) →
      RuleInliner.transformRules ctx fuel st rs tgt done cv = .ok out → ∀ s ∈ out.1, P s
  | [], _, _, _, _, _, htgt, h => by cases h; exact htgt
  | r :: rs, tgt, done, cv, out, hrs, htgt, h => by
    have hrs' := fun s hs => hrs s (List.mem_cons_of_mem r hs)
    rcases transformRules_cons_eq_ok h with ⟨-, h⟩ | ⟨-, _, _, _, hrun, h⟩
    · exact transformRules hinl hrs' htgt h
    · exact transformRules hinl hrs'
        (hP.transformRuleLoop (fun _ => hinl)
          (fun s hs => List.mem_singleton.mp hs ▸ hrs r (List.mem_cons_self _ _)) htgt hrun) h

/-- The filling loop of `plan_inlining` keeps the property on `m_inlined_rules`. -/
lemma fill {fuel : Nat} {cand : RuleSet} (hcand : ∀ r ∈ cand, P r) {st st' : Inliner}
    (hst : ∀ s ∈ st.inlinedRules, P s) (h : Inliner.fill ctx fuel cand st = .ok st') :
    ∀ s ∈ st'.inlinedRules, P s := by
  refine Inliner.fill_invariant (fun b => ∀ s ∈ b.inlinedRules, P s)
    (fun b r b' hb hr h => ?_) hst h
  obtain ⟨tgt, _, _, hrun, rfl⟩ := Inliner.fillRule_eq_ok h
  exact hP.transformRuleLoop (fun h => by cases h)
    (fun s hs => List.mem_singleton.mp hs ▸ hcand r hr) hb hrun

lemma planInlining {fuel : Nat} {R : RuleSet} {st' : Inliner} (hR : ∀ r ∈ R, P r)
    (h0 : ∀ s ∈ st.inlinedRules, P s) (h : st.planInlining ctx fuel R = .ok st') :
    ∀ s ∈ st'.inlinedRules, P s := by
  obtain ⟨_, _, heq, h⟩ := Inliner.planInlining_eq_ok h
  refine hP.fill (fun r hr => hR r (Inliner.mem_of_planCandidates heq hr)) ?_ h
  rw [(Inliner.frame_planCandidates heq).inlined, Inliner.inlinedRules_countPredOccurrences]
  exact h0

end Bulk

/-! ## Eager inlining -/

section Eager
variable {facts : List Pred} {rules : RuleSet} (hrules : ∀ c ∈ rules, P c)
include hrules

lemma eagerLoop : ∀ {n r cv done r' cv' done'}, P r →
    RuleInliner.eagerLoop ctx facts rules n r cv done = .ok (some r', cv', done') → P r'
  | 0, _, _, _, _, _, _, _, h => by cases h
  | n + 1, r, cv, done, r', cv', done', hr, h => by
    rw [RuleInliner.eagerLoop] at h
    split at h
    · cases h; exact hr
    · cases h
    · obtain ⟨_, c, _, hc, _, _, _, htry⟩ := eagerTail_eq_some_some ‹_›
      exact eagerLoop (hP.resolve htry hr (hrules c hc)) h

lemma eagerRules {fuel : Nat} :
    ∀ {rs res cv done out}, (∀ r ∈ rs, P r) → (∀ s ∈ res, P s) →
      RuleInliner.eagerRules ctx fuel facts rules rs res cv done = .ok out → ∀ s ∈ out.1, P s
  | [], _, _, _, _, _, hres, h => by cases h; exact hres
  | r :: rs, res, cv, done, out, hrs, hres, h => by
    rw [RuleInliner.eagerRules] at h
    split at h
    · cases h
    · rename_i r' _ _ heq
      refine eagerRules (fun s hs => hrs s (List.mem_cons_of_mem r hs))
        (fun s hs => ?_) h
      rcases List.mem_append.mp hs with hs | hs
      · exact hres s hs
      · cases r' with
        | none => cases hs
        | some r' =>
          exact List.mem_singleton.mp hs ▸
            hP.eagerLoop hrules (hrs r (List.mem_cons_self _ _)) heq

/-- Eager inlining keeps the property of its input's rules. -/
lemma doEagerInlining {fuel : Nat} {st : Inliner} {out : RuleSet × Bool × Converters}
    (h : RuleInliner.doEagerInlining ctx fuel st rules = .ok out) : ∀ s ∈ out.1, P s := by
  unfold RuleInliner.doEagerInlining at h
  split at h
  · cases h
  · rename_i heq
    cases h
    split_ifs
    · exact hP.eagerRules hrules hrules (fun _ h => by cases h) heq
    · exact hrules

end Eager

/-! ## Linear inlining -/

section Linear
variable {facts : List Pred} {ab : Bool}

/-- One pass of the loop body keeps the property of the rules, and `valid` as long as `acc`. -/
lemma linearStep {i : Nat} {s s' : LinearState} {b : Bool}
    (h : RuleInliner.linearStep ctx facts ab i s = .ok (b, s'))
    (hlen : s.valid.length = s.acc.length) (hs : ∀ t ∈ s.acc, P t) :
    s'.valid.length = s'.acc.length ∧ ∀ t ∈ s'.acc, P t := by
  have hlen' := (linearStep_valid_length h).trans hlen
  have hget : ∀ k < s.acc.length, P s.acc[k]! := fun k hk => hs _ (getElem!_mem hk)
  have hset : ∀ x, P x → ∀ t ∈ s.acc.set i x, P t := fun x hx t ht =>
    (mem_set_cases ht).elim (hs t) fun ⟨_, h⟩ => h ▸ hx
  rcases linearStep_ok h with ⟨-, -, hacc | hacc⟩ | ⟨-, j, res, _, hj, -, htry, hacc, -⟩ <;>
    rw [hacc] <;> simp only [List.length_set, hlen', true_and]
  · exact hs
  · exact fun t ht => (mem_set_cases ht).elim (hs t) fun ⟨hi, h⟩ => h ▸ hP.normVars (hget i hi)
  · intro t ht
    rcases mem_set_cases ht with ht | ⟨hi, rfl⟩
    · exact (mem_set_cases ht).elim (hs t) fun ⟨hi, h⟩ => h ▸ hP.normVars (hget i hi)
    · have hj' := lt_length_of_getElem!_eq_true hj
      rw [List.length_set] at hi
      exact hP.resolve htry (hget i hi) (hget j (hlen ▸ hj'))

lemma linearLoop {i : Nat} :
    ∀ {n s s'}, s.valid.length = s.acc.length → (∀ t ∈ s.acc, P t) →
      RuleInliner.linearLoop ctx facts ab i n s = .ok s' →
      s'.valid.length = s'.acc.length ∧ ∀ t ∈ s'.acc, P t
  | 0, _, _, _, _, h => by cases h
  | n + 1, s, s', hlen, hs, h => by
    rw [RuleInliner.linearLoop] at h
    split at h
    · cases h
    · obtain ⟨hlen', hs'⟩ := hP.linearStep ‹_› hlen hs
      exact linearLoop hlen' hs' h
    · cases h; exact hP.linearStep ‹_› hlen hs

lemma linearDriver {fuel : Nat} :
    ∀ {is s s'}, s.valid.length = s.acc.length → (∀ t ∈ s.acc, P t) →
      RuleInliner.linearDriver ctx fuel facts ab is s = .ok s' → ∀ t ∈ s'.acc, P t
  | [], _, _, _, hs, h => by cases h; exact hs
  | i :: is, s, s', hlen, hs, h => by
    rw [RuleInliner.linearDriver] at h
    split at h
    · cases h
    · obtain ⟨hlen', hs'⟩ := hP.linearLoop hlen hs ‹_›
      exact linearDriver hlen' hs' h

/-- Linear inlining keeps the property of its input's rules. -/
lemma inlineLinear {fuel : Nat} {st : Inliner} {rules : RuleSet}
    {out : RuleSet × Bool × Converters} (hrules : ∀ c ∈ rules, P c)
    (h : RuleInliner.inlineLinear ctx fuel st rules = .ok out) : ∀ s ∈ out.1, P s := by
  unfold RuleInliner.inlineLinear at h
  dsimp only at h
  split at h
  · cases h
  · rename_i s heq
    have hacc := hP.linearDriver (by simp) (by simpa using hrules) heq
    split_ifs at h <;> cases h
    · intro t ht
      obtain ⟨⟨t', v⟩, hp, rfl⟩ := List.mem_map.mp ht
      exact hacc _ (List.of_mem_zip (List.mem_filter.mp hp).1).1
    · exact hacc

end Linear

/-- Run from an object whose `m_inlined_rules` have the property, on an input whose rules have
it, the pass returns rules that have it. -/
lemma run {fuel : Nat} {st st' : Inliner} {S res : RuleSet} {mcReq pcReq : Bool}
    (h0 : ∀ s ∈ st.inlinedRules, P s) (hS : ∀ r ∈ S, P r)
    (h : Inliner.run ctx fuel st S mcReq pcReq = .ok (some res, st')) : ∀ r ∈ res, P r := by
  unfold Inliner.run at h
  rw [if_neg fun he => by rw [if_pos he] at h; cases h] at h
  dsimp only at h
  split at h
  · cases h
  rename_i st₁ hplan
  split at h
  · cases h
  rename_i res₁ _ _ hbulk
  have hres₁ :=
    hP.transformRules (hP.planInlining hS (by exact h0) hplan) hS (fun _ h => by cases h) hbulk
  split at h
  · cases h
  split at h
  · cases h
  rename_i res₂ _ _ heager
  have hres₂ := hP.doEagerInlining hres₁ heager
  split at h
  · cases h
  rename_i res₃ _ _ hlin
  have hres₃ : ∀ r ∈ res₃, P r := by
    split_ifs at hlin
    · exact hP.inlineLinear hres₂ hlin
    · cases hlin; exact hres₂
  split_ifs at h <;> cases h
  exact hres₃

end ResolutionClosed

end RuleInliner
