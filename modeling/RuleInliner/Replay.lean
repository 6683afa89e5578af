import RuleInliner.Meaning

/-!
# The proof converter rebuilds every returned rule

With a proof converter requested, `try_to_inline_rule` records each resolution it performs
(`datalog::resolve_rule`): the renumbered target, the source, the tail index, the rule
substitutions `get_rule_subst` lists for both, and the resolvent; `operator()` appends these
records to the caller's converter. They suffice to rebuild every rule the pass returns
(`run_replays`): each returned rule is an input rule, or is reached from input rules by
renumbering and by recorded steps (`Justified`), and each recorded step can be checked on its own
(`Resolution.Sound`): its substitutions equate the target's atom with the source's head, and its
resolvent holds wherever target and source hold.

The pass only appends records, each of them sound (`Converters.Extends`), so what the records
rebuild at one point they rebuild at every later point (`Converters.Justifies.mono`), and every
record the converter ends with is sound. Each stage keeps both facts together, stage by stage
as in `Stages.lean`: `try_to_inline_rule` (`tryToInlineRule_justifies`),
`transform_rule` and `transform_rules` (`transformRules_replays`), `plan_inlining`
(`planInlining_replays`), eager inlining (`doEagerInlining_replays`) and linear inlining
(`inlineLinear_replays`).
-/

namespace RuleInliner

/-! ## Records and what they rebuild -/

/-- The substitution a list from `get_rule_subst` stands for: variable `k` to the list's `k`-th
term, and every variable past the end to itself. -/
def substOfList (l : List Term) : Subst := fun k => l.getD k (.var k)

lemma substOfList_getRuleSubst {σ : Subst} {r : Rule} {v : Nat} (hv : v ≤ r.maxVar) :
    substOfList (getRuleSubst σ r) v = σ v := by
  simp [substOfList, getRuleSubst, Nat.lt_succ_of_le hv]

/-- On the rule it was made for, the list `get_rule_subst` makes stands for the unifier itself. -/
lemma Rule.subst_getRuleSubst (σ : Subst) (r : Rule) :
    r.subst (substOfList (getRuleSubst σ r)) = r.subst σ :=
  Rule.subst_congr fun _ hv => substOfList_getRuleSubst (Rule.le_maxVar hv)

/-- What a proof checker asks of a recorded step: the recorded substitutions equate the target's
positive tail atom at the recorded index with the source's head, and the resolvent is closed in
every interpretation closed under target and source. -/
def Resolution.Sound (T : Theory) (e : Resolution) : Prop :=
  e.tgt.pos[e.idx]?.map (Atom.subst (substOfList e.tgtSubst)) =
      some (e.src.head.subst (substOfList e.srcSubst)) ∧
    ∀ N M, e.tgt.Closed T N M → e.src.Closed T N M → e.res.Closed T N M

/-- The rules the records `L` rebuild from the input rules `S`: the input rules, their
renumberings, and the resolvent of every sound recorded step whose target and source are
rebuilt. -/
inductive Justified (T : Theory) (S : RuleSet) (L : List Resolution) : Rule → Prop
  | input {r : Rule} : r ∈ S → Justified T S L r
  | normVars {r : Rule} : Justified T S L r → Justified T S L r.normVars
  | resolve {e : Resolution} : e ∈ L → e.Sound T → Justified T S L e.tgt →
      Justified T S L e.src → Justified T S L e.res

lemma Justified.mono {T : Theory} {S : RuleSet} {L L' : List Resolution} (hL : L ⊆ L')
    {r : Rule} (h : Justified T S L r) : Justified T S L' r := by
  induction h with
  | input hr => exact .input hr
  | normVars _ ih => exact .normVars ih
  | resolve he hs _ _ iht ihs => exact .resolve (hL he) hs iht ihs

/-- `cv'` holds the records of `cv` followed by some more, each of them sound. -/
def Converters.Extends (T : Theory) (cv cv' : Converters) : Prop :=
  ∃ more : List Resolution, cv'.pc = cv.pc.map (· ++ more) ∧ ∀ e ∈ more, e.Sound T

/-- Every record list `cv` holds rebuilds `r` from the input rules `S`. -/
def Converters.Justifies (T : Theory) (S : RuleSet) (cv : Converters) (r : Rule) : Prop :=
  ∀ L, cv.pc = some L → Justified T S L r

namespace Converters

variable {T : Theory} {S : RuleSet} {cv cv' : Converters} {r : Rule}

lemma Extends.refl (cv : Converters) : cv.Extends T cv := ⟨[], by simp, fun _ h => by cases h⟩

lemma Extends.trans {cv₁ cv₂ cv₃ : Converters} (h₁ : cv₁.Extends T cv₂) (h₂ : cv₂.Extends T cv₃) :
    cv₁.Extends T cv₃ := by
  obtain ⟨m₁, h₁, hs₁⟩ := h₁
  obtain ⟨m₂, h₂, hs₂⟩ := h₂
  refine ⟨m₁ ++ m₂, by rw [h₂, h₁, Option.map_map]; simp [Function.comp_def], fun e he => ?_⟩
  exact (List.mem_append.mp he).elim (hs₁ e) (hs₂ e)

/-- `datalog::del_rule` leaves the proof converter alone. -/
lemma extends_delRule (cv : Converters) (r : Rule) : cv.Extends T (cv.delRule r) := .refl cv

lemma extends_resolveRule {e : Resolution} (he : e.Sound T) : cv.Extends T (cv.resolveRule e) :=
  ⟨[e], rfl, fun _ h => List.mem_singleton.mp h ▸ he⟩

lemma Justifies.input (hr : r ∈ S) : cv.Justifies T S r := fun _ _ => .input hr

lemma Justifies.normVars (h : cv.Justifies T S r) : cv.Justifies T S r.normVars :=
  fun L hL => .normVars (h L hL)

lemma Justifies.mono (hcv : cv.Extends T cv') (h : cv.Justifies T S r) : cv'.Justifies T S r :=
  fun L' hL' => by
    obtain ⟨more, hmore, -⟩ := hcv
    obtain ⟨L, hL, rfl⟩ := Option.map_eq_some'.mp (hmore ▸ hL')
    exact (h L hL).mono (List.subset_append_left L more)

end Converters

/-! ## One resolution -/

/-- A failing `try_to_inline_rule` leaves the converters alone. -/
lemma tryToInlineRule_eq_none {ctx : Context} {cv cv' : Converters} {tgt src : Rule} {i : Nat}
    (h : tryToInlineRule ctx cv tgt src i = (none, cv')) : cv' = cv := by
  unfold tryToInlineRule at h
  split at h; · cases h; rfl
  split at h; · cases h; rfl
  split at h
  · cases h; rfl
  · cases h

section Replay
variable {T : Theory} {ctx : Context} {S : RuleSet} (hctx : ctx.PreservesMeaning T)
  (hsound : ctx.UnifierSound)
include hctx hsound

/-- A successful `try_to_inline_rule` has recorded one sound step, from the renumbered target
and the source to the rule it returns. -/
lemma tryToInlineRule_records {cv cv' : Converters} {tgt src res : Rule} {i : Nat}
    (h : tryToInlineRule ctx cv tgt src i = (some res, cv')) :
    ∃ e : Resolution, cv' = cv.resolveRule e ∧ e.tgt = tgt.normVars ∧ e.src = src ∧
      e.res = res ∧ e.Sound T := by
  unfold tryToInlineRule at h
  split at h; · cases h
  split at h; · cases h
  rename_i σ hσ
  split at h; · cases h
  rename_i hres
  cases h
  have hequ := unifyRules_equates hsound hσ
  refine ⟨_, rfl, rfl, rfl, rfl, ?_, fun N M ht hs =>
    (applyUnifier_equiv hctx hres).1.closed (resolvent_closed hequ ht hs)⟩
  have h₁ := congrArg (fun r : Rule => r.pos[i]?) (Rule.subst_getRuleSubst σ.1 tgt.normVars)
  have h₂ := congrArg Rule.head (Rule.subst_getRuleSubst σ.2 src)
  simp only [Rule.subst_pos, List.getElem?_map] at h₁
  dsimp only
  rw [h₁, hequ]
  exact congrArg some h₂.symm

/-- `try_to_inline_rule` appends at most one record, a sound one. -/
lemma tryToInlineRule_extends (cv : Converters) (tgt src : Rule) (i : Nat) :
    cv.Extends T (tryToInlineRule ctx cv tgt src i).2 := by
  rcases htry : tryToInlineRule ctx cv tgt src i with ⟨_ | _, cv'⟩
  · rw [tryToInlineRule_eq_none htry]
    exact .refl cv
  · obtain ⟨e, rfl, -, -, -, he⟩ := tryToInlineRule_records hctx hsound htry
    exact Converters.extends_resolveRule he

/-- The resolvent `try_to_inline_rule` returns is rebuilt by the records it leaves, when its
target and source are rebuilt by the records it was given. -/
lemma tryToInlineRule_justifies {cv cv' : Converters} {tgt src res : Rule} {i : Nat}
    (h : tryToInlineRule ctx cv tgt src i = (some res, cv')) (ht : cv.Justifies T S tgt)
    (hs : cv.Justifies T S src) : cv'.Justifies T S res := by
  obtain ⟨e, rfl, het, hes, rfl, he⟩ := tryToInlineRule_records hctx hsound h
  intro L' hL'
  obtain ⟨L, hL, rfl⟩ := Option.map_eq_some'.mp hL'
  have hsub : L ⊆ L ++ [e] := List.subset_append_left L [e]
  refine .resolve (List.mem_append_right L (List.mem_singleton_self e)) he ?_ ?_
  · rw [het]; exact ((ht L hL).mono hsub).normVars
  · rw [hes]; exact (hs L hL).mono hsub

/-! ## Planning and bulk inlining -/

lemma inlineAll_replays {r : Rule} {i : Nat} :
    ∀ {cv : Converters} {srcs : List Rule}, cv.Justifies T S r →
      (∀ s ∈ srcs, cv.Justifies T S s) →
      cv.Extends T (inlineAll ctx r i cv srcs).2 ∧
        ∀ c ∈ (inlineAll ctx r i cv srcs).1, (inlineAll ctx r i cv srcs).2.Justifies T S c
  | cv, [], _, _ => ⟨.refl cv, fun _ h => by cases h⟩
  | cv, src :: srcs, hr, hsrcs => by
    simp only [inlineAll]
    have hext := tryToInlineRule_extends hctx hsound cv r src i
    rcases htry : tryToInlineRule ctx cv r src i with ⟨o, cv₁⟩
    rw [htry] at hext
    obtain ⟨hext', hall⟩ := inlineAll_replays (hr.mono hext)
      fun s hs => (hsrcs s (List.mem_cons_of_mem _ hs)).mono hext
    refine ⟨hext.trans hext', fun c hc => ?_⟩
    rcases List.mem_append.mp hc with hc | hc
    · cases o with
      | none => cases hc
      | some res =>
        obtain rfl := List.mem_singleton.mp hc
        exact (tryToInlineRule_justifies hctx hsound htry hr
          (hsrcs src (List.mem_cons_self _ _))).mono hext'
    · exact hall c hc

lemma transformRuleLoop_replays {st : Inliner} {self : Bool} :
    ∀ {n todo tgt modified cv out},
      (self = false → ∀ s ∈ st.inlinedRules, cv.Justifies T S s) →
      (∀ r ∈ todo, cv.Justifies T S r) → (∀ s ∈ tgt, cv.Justifies T S s) →
      transformRuleLoop ctx st self n todo tgt modified cv = .ok out →
      cv.Extends T out.2.2 ∧ ∀ s ∈ out.1, out.2.2.Justifies T S s
  | 0, _, _, _, _, _, _, _, _, h => by cases h
  | n + 1, [], tgt, _, cv, _, _, _, htgt, h => by cases h; exact ⟨.refl cv, htgt⟩
  | n + 1, r :: todo, tgt, modified, cv, out, hinl, htodo, htgt, h => by
    have hr := htodo r (List.mem_cons_self _ _)
    have htodo' := fun s hs => htodo s (List.mem_cons_of_mem r hs)
    rcases @transformRuleLoop_cons_cases ctx st self r with ⟨-, e⟩ | ⟨-, -, e⟩ | ⟨-, i, hi, -, e⟩ <;>
      rw [e] at h
    · -- dropped
      exact transformRuleLoop_replays hinl htodo' htgt h
    · -- moved to the target
      refine transformRuleLoop_replays hinl htodo' (fun s hs => ?_) h
      rcases List.mem_append.mp hs with hs | hs
      · exact htgt s hs
      · exact List.mem_singleton.mp hs ▸ hr
    · -- replaced by its resolvents, rebuilt by the records `inlineAll` appends
      have hsrcs : ∀ s ∈ (if self then tgt else st.inlinedRules).predicateRules r.pos[i].pred,
          cv.Justifies T S s := fun s hs => by
        replace hs := (List.mem_filter.mp hs).1
        cases self
        · exact hinl rfl s hs
        · exact htgt s hs
      obtain ⟨hext, hres⟩ := inlineAll_replays hctx hsound (i := i) hr hsrcs
      have hrest := transformRuleLoop_replays (fun hs s hs' => (hinl hs s hs').mono hext)
        (fun s hs => ?_) (fun s hs => (htgt s hs).mono hext) h
      · exact ⟨hext.trans hrest.1, hrest.2⟩
      rcases List.mem_append.mp hs with hs | hs
      · exact hres s (List.mem_reverse.mp hs)
      · exact (htodo' s hs).mono hext

/-- `transform_rules` only appends records, and its records rebuild every rule it returns. -/
lemma transformRules_replays {st : Inliner} {fuel : Nat} :
    ∀ {rs tgt done cv out}, (∀ s ∈ st.inlinedRules, cv.Justifies T S s) →
      (∀ r ∈ rs, cv.Justifies T S r) → (∀ s ∈ tgt, cv.Justifies T S s) →
      transformRules ctx fuel st rs tgt done cv = .ok out →
      cv.Extends T out.2.2 ∧ ∀ s ∈ out.1, out.2.2.Justifies T S s
  | [], _, _, cv, _, _, _, htgt, h => by cases h; exact ⟨.refl cv, htgt⟩
  | r :: rs, tgt, done, cv, out, hinl, hrs, htgt, h => by
    have hrs' := fun s hs => hrs s (List.mem_cons_of_mem r hs)
    rcases transformRules_cons_eq_ok h with ⟨-, h⟩ | ⟨-, _, _, _, hrun, h⟩
    · exact transformRules_replays hinl hrs' htgt h
    · obtain ⟨hext, htgt'⟩ := transformRuleLoop_replays hctx hsound (fun _ => hinl)
        (fun s hs => List.mem_singleton.mp hs ▸ hrs r (List.mem_cons_self _ _)) htgt hrun
      obtain ⟨hext', hout⟩ := transformRules_replays (fun s hs => (hinl s hs).mono hext)
        (fun s hs => (hrs' s hs).mono hext) htgt' h
      exact ⟨hext.trans hext', hout⟩

/-- `plan_inlining` only appends records, and fills `m_inlined_rules` with rules its records
rebuild from the input. -/
lemma planInlining_replays {fuel : Nat} {st st' : Inliner}
    (h0 : ∀ s ∈ st.inlinedRules, st.cv.Justifies T S s) (h : st.planInlining ctx fuel S = .ok st') :
    st.cv.Extends T st'.cv ∧ ∀ s ∈ st'.inlinedRules, st'.cv.Justifies T S s := by
  obtain ⟨st₁, cand, hc, hfill⟩ := Inliner.planInlining_eq_ok h
  have hf := Inliner.frame_planCandidates hc
  refine Inliner.fill_invariant
    (fun b => st.cv.Extends T b.cv ∧ ∀ s ∈ b.inlinedRules, b.cv.Justifies T S s)
    (fun b r b' ⟨hext, hb⟩ hr h => ?_) ⟨?_, ?_⟩ hfill
  · obtain ⟨tgt, _, cv, hrun, rfl⟩ := Inliner.fillRule_eq_ok h
    obtain ⟨hext', hout⟩ := transformRuleLoop_replays hctx hsound (fun h => by cases h)
      (fun s hs => List.mem_singleton.mp hs ▸ .input (Inliner.mem_of_planCandidates hc hr)) hb hrun
    exact ⟨hext.trans hext', hout⟩
  · rw [hf.cv, Inliner.cv_countPredOccurrences]
    exact .refl _
  · rw [hf.cv, hf.inlined, Inliner.cv_countPredOccurrences, Inliner.inlinedRules_countPredOccurrences]
    exact h0

/-! ## Eager inlining -/

section Eager
variable {facts : List Pred} {rules : RuleSet}

lemma eagerTail_replays {r : Rule} :
    ∀ {ti as cv o cv'}, cv.Justifies T S r → (∀ c ∈ rules, cv.Justifies T S c) →
      eagerTail ctx facts rules r ti as cv = (o, cv') →
      cv.Extends T cv' ∧ ∀ res, o = some (some res) → cv'.Justifies T S res
  | _, [], cv, _, _, _, _, h => by cases h; exact ⟨.refl cv, fun _ h => by cases h⟩
  | ti, a :: as, cv, o, cv', hr, hrules, h => by
    rw [eagerTail] at h
    split_ifs at h
    · exact eagerTail_replays hr hrules h
    split at h
    · exact eagerTail_replays hr hrules h
    · cases h
      exact ⟨cv.extends_delRule r, fun _ h => by cases h⟩
    · rename_i c hc
      split_ifs at h
      · exact eagerTail_replays hr hrules h
      have hext := tryToInlineRule_extends hctx hsound cv r c ti
      split at h <;> rename_i htry <;> rw [htry] at hext <;> cases h
      · refine ⟨hext, fun res hres => ?_⟩
        cases hres
        exact tryToInlineRule_justifies hctx hsound htry hr
          (hrules c (List.mem_filter.mp (mem_of_eagerCandidate hc)).1)
      · exact ⟨hext.trans (Converters.extends_delRule _ _), fun _ h => by cases h⟩

lemma eagerLoop_replays :
    ∀ {n r cv done out}, cv.Justifies T S r → (∀ c ∈ rules, cv.Justifies T S c) →
      eagerLoop ctx facts rules n r cv done = .ok out →
      cv.Extends T out.2.1 ∧ ∀ r', out.1 = some r' → out.2.1.Justifies T S r'
  | 0, _, _, _, _, _, _, h => by cases h
  | n + 1, r, cv, done, out, hr, hrules, h => by
    rcases hd : doEagerInliningRule ctx facts rules cv r with ⟨o, cv₁⟩
    obtain ⟨hext, hres⟩ := eagerTail_replays hctx hsound hr hrules hd
    rw [eagerLoop, hd] at h
    rcases o with _ | _ | r'
    · cases h
      exact ⟨hext, fun _ h => Option.some.inj h ▸ hr.mono hext⟩
    · cases h
      exact ⟨hext, fun _ h => by cases h⟩
    · obtain ⟨hext', hout⟩ := eagerLoop_replays (hres r' rfl) (fun c hc => (hrules c hc).mono hext) h
      exact ⟨hext.trans hext', hout⟩

lemma eagerRules_replays {fuel : Nat} :
    ∀ {rs res cv done out}, (∀ r ∈ rs, cv.Justifies T S r) → (∀ s ∈ res, cv.Justifies T S s) →
      (∀ c ∈ rules, cv.Justifies T S c) → eagerRules ctx fuel facts rules rs res cv done = .ok out →
      cv.Extends T out.2.1 ∧ ∀ s ∈ out.1, out.2.1.Justifies T S s
  | [], _, cv, _, _, _, hres, _, h => by cases h; exact ⟨.refl cv, hres⟩
  | r :: rs, res, cv, done, out, hrs, hres, hrules, h => by
    rw [eagerRules] at h
    split at h
    · cases h
    · rename_i r' _ _ heq
      obtain ⟨hext, hr'⟩ := eagerLoop_replays hctx hsound (hrs r (List.mem_cons_self _ _)) hrules heq
      have hrest := eagerRules_replays
        (fun s hs => (hrs s (List.mem_cons_of_mem r hs)).mono hext) (fun s hs => ?_)
        (fun c hc => (hrules c hc).mono hext) h
      · exact ⟨hext.trans hrest.1, hrest.2⟩
      rcases List.mem_append.mp hs with hs | hs
      · exact (hres s hs).mono hext
      · cases r' with
        | none => cases hs
        | some r' => exact List.mem_singleton.mp hs ▸ hr' r' rfl

/-- Eager inlining only appends records, and its records rebuild every rule it returns. -/
lemma doEagerInlining_replays {fuel : Nat} {st : Inliner} {out : RuleSet × Bool × Converters}
    (hrules : ∀ c ∈ rules, st.cv.Justifies T S c)
    (h : doEagerInlining ctx fuel st rules = .ok out) :
    st.cv.Extends T out.2.2 ∧ ∀ s ∈ out.1, out.2.2.Justifies T S s := by
  unfold doEagerInlining at h
  split at h
  · cases h
  · rename_i heq
    cases h
    obtain ⟨hext, hout⟩ :=
      eagerRules_replays hctx hsound hrules (fun _ h => by cases h) hrules heq
    refine ⟨hext, ?_⟩
    split_ifs
    · exact hout
    · exact fun s hs => (hrules s hs).mono hext

end Eager

/-! ## Linear inlining -/

section Linear
variable {facts : List Pred} {ab : Bool}

/-- One pass of the loop body keeps `valid` as long as `acc`, only appends records, and leaves
rules in `acc` that its records rebuild. -/
lemma linearStep_replays {i : Nat} {s s' : LinearState} {b : Bool}
    (h : linearStep ctx facts ab i s = .ok (b, s')) (hlen : s.valid.length = s.acc.length)
    (hs : ∀ t ∈ s.acc, s.cv.Justifies T S t) :
    s'.valid.length = s'.acc.length ∧ s.cv.Extends T s'.cv ∧
      ∀ t ∈ s'.acc, s'.cv.Justifies T S t := by
  have hv := linearStep_valid_length h
  cases b
  · rcases linearStep_false h with rfl | rfl
    · exact ⟨hlen, .refl _, hs⟩
    · refine ⟨by simpa using hlen, .refl _, fun t ht => ?_⟩
      rcases mem_set_cases ht with ht | ⟨hi, rfl⟩
      · exact hs t ht
      · exact (hs _ (getElem!_mem hi)).normVars
  · obtain ⟨j, rlRes, cv', hvi, -, -, -, hvj, -, -, htry, hacc, -, -, -, hcv⟩ := linearStep_true h
    have h₁ := tryToInlineRule_extends hctx hsound s.cv s.acc[i]! s.acc[j]! 0
    rw [htry] at h₁
    have h₂ : cv'.Extends T s'.cv := by
      rw [hcv]
      split_ifs
      exacts [cv'.extends_delRule _, .refl cv']
    rw [List.set_set] at hacc
    refine ⟨by rw [hv, hacc, List.length_set, hlen], h₁.trans h₂, fun t ht => ?_⟩
    rw [hacc] at ht
    rcases mem_set_cases ht with ht | ⟨-, rfl⟩
    · exact (hs t ht).mono (h₁.trans h₂)
    · have hi := hlen ▸ lt_length_of_getElem!_eq_true hvi
      have hj := hlen ▸ lt_length_of_getElem!_eq_true hvj
      exact (tryToInlineRule_justifies hctx hsound htry (hs _ (getElem!_mem hi))
        (hs _ (getElem!_mem hj))).mono h₂

lemma linearLoop_replays {i : Nat} :
    ∀ {n s s'}, s.valid.length = s.acc.length → (∀ t ∈ s.acc, s.cv.Justifies T S t) →
      linearLoop ctx facts ab i n s = .ok s' →
      s'.valid.length = s'.acc.length ∧ s.cv.Extends T s'.cv ∧
        ∀ t ∈ s'.acc, s'.cv.Justifies T S t
  | 0, _, _, _, _, h => by cases h
  | n + 1, s, s', hlen, hs, h => by
    rw [linearLoop] at h
    split at h
    · cases h
    · obtain ⟨hlen', hext, hs'⟩ := linearStep_replays hctx hsound ‹_› hlen hs
      obtain ⟨hlen'', hext', hout⟩ := linearLoop_replays hlen' hs' h
      exact ⟨hlen'', hext.trans hext', hout⟩
    · cases h
      exact linearStep_replays hctx hsound ‹_› hlen hs

lemma linearDriver_replays {fuel : Nat} :
    ∀ {is s s'}, s.valid.length = s.acc.length → (∀ t ∈ s.acc, s.cv.Justifies T S t) →
      linearDriver ctx fuel facts ab is s = .ok s' →
      s.cv.Extends T s'.cv ∧ ∀ t ∈ s'.acc, s'.cv.Justifies T S t
  | [], s, _, _, hs, h => by cases h; exact ⟨.refl s.cv, hs⟩
  | i :: is, s, s', hlen, hs, h => by
    rw [linearDriver] at h
    split at h
    · cases h
    · obtain ⟨hlen', hext, hs'⟩ := linearLoop_replays hctx hsound hlen hs ‹_›
      obtain ⟨hext', hout⟩ := linearDriver_replays hlen' hs' h
      exact ⟨hext.trans hext', hout⟩

/-- Linear inlining only appends records, and its records rebuild every rule it returns. -/
lemma inlineLinear_replays {fuel : Nat} {st : Inliner} {rules : RuleSet}
    {out : RuleSet × Bool × Converters} (hrules : ∀ c ∈ rules, st.cv.Justifies T S c)
    (h : inlineLinear ctx fuel st rules = .ok out) :
    st.cv.Extends T out.2.2 ∧ ∀ s ∈ out.1, out.2.2.Justifies T S s := by
  unfold inlineLinear at h
  dsimp only at h
  split at h
  · cases h
  · rename_i s heq
    obtain ⟨hext, hacc⟩ := linearDriver_replays hctx hsound (by simp) (by simpa using hrules) heq
    rw [linearInit_cv] at hext
    split_ifs at h <;> cases h
    · refine ⟨hext, fun t ht => ?_⟩
      obtain ⟨⟨t', v⟩, hp, rfl⟩ := List.mem_map.mp ht
      exact hacc _ (List.of_mem_zip (List.mem_filter.mp hp).1).1
    · exact ⟨hext, hacc⟩

end Linear

end Replay

/-- Run from an object with an empty `m_inlined_rules`, with a proof converter requested, with
`m_unif` returning unifiers and the collaborators keeping instances: when `operator()` returns a
rule set, the proof converter it leaves holds records that rebuild every returned rule from the
input rules by renumbering and by sound recorded resolution steps. -/
theorem run_replays {T : Theory} {ctx : Context} {fuel : Nat} {st st' : Inliner}
    {S res : RuleSet} {mcReq : Bool} (hctx : ctx.PreservesMeaning T) (hsound : ctx.UnifierSound)
    (h0 : st.inlinedRules = []) (h : Inliner.run ctx fuel st S mcReq true = .ok (some res, st')) :
    ∃ L, st'.cv.pc = some L ∧ (∀ e ∈ L, e.Sound T) ∧ ∀ r ∈ res, Justified T S L r := by
  obtain ⟨st₁, res₁, _, cv₁, res₂, _, cv₂, _, cv₃, hplan, hbulk, heager, hlin, rfl⟩ :=
    Inliner.run_eq_some h
  obtain ⟨hext₁, hinl⟩ := planInlining_replays hctx hsound (by simp [h0]) hplan
  obtain ⟨hext₂, hres₁⟩ := transformRules_replays hctx hsound hinl (fun _ => .input)
    (fun _ h => by cases h) hbulk
  obtain ⟨hext₃, hres₂⟩ := doEagerInlining_replays hctx hsound hres₁ heager
  have hlin' : cv₂.Extends T cv₃ ∧ ∀ r ∈ res, cv₃.Justifies T S r := by
    split_ifs at hlin
    · exact inlineLinear_replays hctx hsound hres₂ hlin
    · cases hlin
      exact ⟨.refl _, hres₂⟩
  obtain ⟨more, hmore, hsnd⟩ := hext₁.trans (hext₂.trans (hext₃.trans hlin'.1))
  exact ⟨_, hmore, hsnd, fun r hr => hlin'.2 r hr _ hmore⟩

/-- On `Out(x) :- P(x)`, `P(x) :- B(x)`, the pass returns `Out(x) :- B(x)`, which the records of
its proof converter rebuild. -/
theorem run_replays_chain :
    ∃ st₁, Inliner.run chainContext 10 Inliner.init chainRules true true =
        .ok (some [⟨⟨⟨0, 1⟩, [.var 0]⟩, [⟨⟨2, 1⟩, [.var 0]⟩], [], []⟩], st₁) ∧
      ∃ L, st₁.cv.pc = some L ∧ (∀ e ∈ L, e.Sound (fun _ => True)) ∧
        ∀ r ∈ [(⟨⟨⟨0, 1⟩, [.var 0]⟩, [⟨⟨2, 1⟩, [.var 0]⟩], [], []⟩ : Rule)],
          Justified (fun _ => True) chainRules L r :=
  ⟨_, rfl, @run_replays _ chainContext 10 Inliner.init _ chainRules _ true
    (Context.reference_preservesMeaning _ _ _ _) (Context.reference_unifierSound _ _ _) rfl rfl⟩

end RuleInliner
