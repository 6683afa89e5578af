import RuleInliner.Syntax.Stratify
import RuleInliner.Params.Basic

/-!
# The rule unifier

Model of `rule_unifier` and `mk_rule_inliner::try_to_inline_rule`: unify positive tail atom
`i` of a target rule (at variable offset 0) with the head of a source rule (at offset 1),
then build the resolvent: the substituted target head, the target tail without atom `i`
followed by the source tail, duplicates removed, variables renumbered, unbound variables
optionally closed, and the interpreted tail simplified.

The collaborators this code calls but does not contain are the fields of `Context`: the
Datalog context (output predicates, predicates with facts, its parameters), the unifier on
argument lists (`m_unif`, returning the substitutions of the two offsets with
`m_deltas` applied), the rule manager's `fix_unbound_vars` (which rewrites the interpreted
tail) and the interpreted-tail simplifier (which either reports the tail unsatisfiable or
returns a substitution and a new interpreted tail). Comparing the predicate symbols of the
two atoms is the unifier's first step, so `unifyAtoms` does it here.
-/

namespace RuleInliner

/-- The ways a run of the pass can end other than by returning: a failed `VERIFY`, a null
dereference (`del_position` on a missing key), or a loop that did not finish within the
fuel given to the model. -/
inductive PassError where
  | verifyFailed
  | nullDeref
  | outOfFuel
  deriving DecidableEq, Repr

@[simp] lemma except_ok_bind {ε α β : Type} (a : α) (f : α → Except ε β) :
    (Except.ok a : Except ε α) >>= f = f a := rfl

/-- Peel one bind off a successful `Except` computation. -/
lemma except_bind_eq_ok {ε α β : Type} {x : Except ε α} {f : α → Except ε β} {b : β}
    (h : x >>= f = .ok b) : ∃ a, x = .ok a ∧ f a = .ok b := by
  cases x with
  | error e => cases h
  | ok a => exact ⟨a, rfl, h⟩

/-- A computation on fuel finishes: from some amount of fuel on it returns one value, and
that value satisfies `P`. This is how the model says that a loop of the source terminates. -/
def Finishes {α : Type} (f : Nat → Except PassError α) (P : α → Prop) : Prop :=
  ∃ K x, P x ∧ ∀ F, K ≤ F → f F = .ok x

/-- A fold whose every successful step keeps an invariant keeps it. -/
lemma foldlM_invariant {ε α β : Type} {f : β → α → Except ε β} {I : β → Prop} {Q : α → Prop}
    (hf : ∀ b a b', I b → Q a → f b a = .ok b' → I b') :
    ∀ (l : List α), (∀ a ∈ l, Q a) → ∀ b b', I b → l.foldlM f b = .ok b' → I b'
  | [], _, b, _, hb, h => by cases h; exact hb
  | a :: l, hl, b, b', hb, h => by
    obtain ⟨b₁, h₁, h⟩ := except_bind_eq_ok h
    exact foldlM_invariant hf l (fun a ha => hl a (List.mem_cons_of_mem _ ha)) b₁ b'
      (hf b a b₁ hb (hl a (List.mem_cons_self _ _)) h₁) h

/-- A fold fails only with an error one of its steps fails with. -/
lemma foldlM_error {ε α β : Type} {f : β → α → Except ε β} {P : ε → Prop}
    (hf : ∀ b a e, f b a = .error e → P e) :
    ∀ (l : List α) (b : β) (e : ε), l.foldlM f b = .error e → P e
  | [], _, _, h => by cases h
  | a :: l, b, e, h => by
    change f b a >>= (fun b => l.foldlM f b) = _ at h
    cases hfa : f b a with
    | error e' => rw [hfa] at h; cases h; exact hf b a e hfa
    | ok b' => rw [hfa] at h; exact foldlM_error hf l b' e h

/-- A fold whose every step finishes, keeping an invariant, finishes. -/
lemma finishes_foldlM {α β : Type} {f : Nat → β → α → Except PassError β} {I : β → Prop}
    {Q : α → Prop} (hf : ∀ b a, I b → Q a → Finishes (fun F => f F b a) I) :
    ∀ (l : List α), (∀ a ∈ l, Q a) → ∀ b, I b → Finishes (fun F => l.foldlM (f F) b) I
  | [], _, b, hb => ⟨0, b, hb, fun _ _ => rfl⟩
  | a :: l, hl, b, hb => by
    obtain ⟨K₁, b₁, hb₁, h₁⟩ := hf b a hb (hl a (List.mem_cons_self _ _))
    obtain ⟨K₂, b₂, hb₂, h₂⟩ :=
      finishes_foldlM hf l (fun a ha => hl a (List.mem_cons_of_mem _ ha)) b₁ hb₁
    refine ⟨K₁ + K₂, b₂, hb₂, fun F hF => ?_⟩
    have e₁ : f F b a = .ok b₁ := h₁ F (by omega)
    show (f F b a >>= fun b => l.foldlM (f F) b) = _
    rw [e₁, except_ok_bind]
    exact h₂ F (by omega)

/-- The collaborators of `mk_rule_inliner` outside `dl_mk_rule_inliner.cpp`. -/
structure Context where
  /-- The declared output predicates (`context::is_output_predicate`). -/
  outputPredicates : List Pred
  /-- The predicates with a non-empty extension (`collect_non_empty_predicates`). -/
  nonEmptyPredicates : List Pred
  /-- `context::fix_unbound_vars()`. -/
  fixUnboundVars : Bool
  /-- `context::get_params()`. -/
  params : Params.Obj
  /-- `m_unif`: unify argument lists at offsets 0 and 1, given the variable count used as
  the offset-1 shift; returns the substitutions of both offsets. -/
  unif : Nat → List Term → List Term → Option (Subst × Subst)
  /-- `rule_manager::fix_unbound_vars`: the new interpreted tail of a rule. -/
  closeUnbound : Rule → List Constraint
  /-- `mk_interp_tail_simplifier::transform_rule`: `none` when the interpreted tail is
  unsatisfiable, otherwise a substitution and the simplified interpreted tail. -/
  simplify : Rule → Option (Subst × List Constraint)

namespace Context
variable (ctx : Context)

/-- `context::is_output_predicate`. -/
def isOutputPredicate (p : Pred) : Bool := p ∈ ctx.outputPredicates

/-- `m_unif` on two atoms: their predicates must agree, then their arguments unify. -/
def unifyAtoms (varCnt : Nat) (a b : Atom) : Option (Subst × Subst) :=
  if a.pred = b.pred then ctx.unif varCnt a.args b.args else none

lemma pred_eq_of_unifyAtoms {varCnt : Nat} {a b : Atom} {σ : Subst × Subst}
    (h : ctx.unifyAtoms varCnt a b = some σ) : a.pred = b.pred := by
  unfold unifyAtoms at h
  split at h
  · assumption
  · cases h

end Context

/-- A resolution step recorded in the proof converter (`datalog::resolve_rule`): target,
source, tail index, the two rule substitutions (`get_rule_subst`) and the resolvent. -/
structure Resolution where
  tgt : Rule
  src : Rule
  idx : Nat
  tgtSubst : List Term
  srcSubst : List Term
  res : Rule
  deriving DecidableEq, Repr

/-- The converters the pass writes to: the entries of the `horn_subsume_model_converter`
(one deleted rule per `datalog::del_rule`) and of the `replace_proof_converter`; `none`
when the caller asked for no converter (`m_mc`, `m_pc` null). -/
structure Converters where
  mc : Option (List Rule)
  pc : Option (List Resolution)
  deriving DecidableEq, Repr

/-- `datalog::del_rule`: record a deleted rule in the model converter. -/
def Converters.delRule (cv : Converters) (r : Rule) : Converters :=
  { cv with mc := cv.mc.map (· ++ [r]) }

/-- `datalog::resolve_rule`: record a resolution step in the proof converter. -/
def Converters.resolveRule (cv : Converters) (s : Resolution) : Converters :=
  { cv with pc := cv.pc.map (· ++ [s]) }

/-- `rule_unifier::unify_rules`: unify positive tail atom `i` of `tgt` with the head of
`src`, the source shifted past every variable of both rules. -/
def unifyRules (ctx : Context) (tgt : Rule) (i : Nat) (src : Rule) : Option (Subst × Subst) :=
  match tgt.pos[i]? with
  | some a => ctx.unifyAtoms (max tgt.maxVar src.maxVar + 1) a src.head
  | none => none

/-- `rule_unifier::apply`: the resolvent of `tgt` and `src` at tail `i` under the unifier
`σ`, or `none` when the simplifier finds its interpreted tail unsatisfiable. -/
def applyUnifier (ctx : Context) (σ : Subst × Subst) (tgt : Rule) (i : Nat) (src : Rule) :
    Option Rule :=
  let tail := (tgt.tail.eraseIdx i).map (TailElem.subst σ.1) ++ src.tail.map (TailElem.subst σ.2)
  let res := (mkRule (tgt.head.subst σ.1) (removeDuplicateTails tail)).normVars
  let res := if ctx.fixUnboundVars then { res with interp := ctx.closeUnbound res } else res
  (ctx.simplify res).map fun s => { res.subst s.1 with interp := s.2 }

/-- `rule_unifier::get_rule_subst`: the image of every variable of `r`. -/
def getRuleSubst (σ : Subst) (r : Rule) : List Term := (List.range (r.maxVar + 1)).map σ

/-- `mk_rule_inliner::try_to_inline_rule`: normalise the target's variables, refuse a source
with a quantifier, unify, build the resolvent and record the step. -/
def tryToInlineRule (ctx : Context) (cv : Converters) (tgt src : Rule) (i : Nat) :
    Option Rule × Converters :=
  if src.hasQuantifier then (none, cv) else
  match unifyRules ctx tgt.normVars i src with
  | none => (none, cv)
  | some σ =>
    match applyUnifier ctx σ tgt.normVars i src with
    | none => (none, cv)
    | some res => (some res, cv.resolveRule ⟨tgt.normVars, src, i, getRuleSubst σ.1 tgt.normVars,
        getRuleSubst σ.2 src, res⟩)

end RuleInliner

namespace RuleInliner

/-- Erasing an index commutes with `map`. -/
lemma eraseIdx_map {α β : Type} (f : α → β) :
    ∀ (l : List α) (i : Nat), (l.map f).eraseIdx i = (l.eraseIdx i).map f
  | [], _ => rfl
  | _ :: _, 0 => rfl
  | a :: l, i + 1 => by simp [eraseIdx_map f l i]

@[simp] lemma TailElem.posAtom?_subst (σ : Subst) (e : TailElem) :
    (e.subst σ).posAtom? = e.posAtom?.map (Atom.subst σ) := by
  rcases e with ⟨a, _ | _⟩ | c <;> rfl

@[simp] lemma TailElem.negAtom?_subst (σ : Subst) (e : TailElem) :
    (e.subst σ).negAtom? = e.negAtom?.map (Atom.subst σ) := by
  rcases e with ⟨a, _ | _⟩ | c <;> rfl

lemma Rule.tail_filterMap_posAtom? (r : Rule) : r.tail.filterMap TailElem.posAtom? = r.pos := by
  simp [Rule.tail, List.filterMap_map, Function.comp_def, TailElem.posAtom?]

lemma Rule.tail_filterMap_negAtom? (r : Rule) : r.tail.filterMap TailElem.negAtom? = r.neg := by
  simp [Rule.tail, List.filterMap_map, Function.comp_def, TailElem.negAtom?,
    List.filterMap_eq_nil_iff.mpr fun _ _ => rfl]

/-- Dropping positive tail atom `i` from the flat tail drops it from the positive part. -/
lemma Rule.tail_eraseIdx_posAtom? (r : Rule) {i : Nat} (hi : i < r.pos.length) :
    (r.tail.eraseIdx i).filterMap TailElem.posAtom? = r.pos.eraseIdx i := by
  have hlen : i < (r.pos.map (TailElem.atom · false)).length := by simpa using hi
  rw [Rule.tail, List.append_assoc, List.eraseIdx_append_of_lt_length hlen, eraseIdx_map]
  simp [List.filterMap_map, Function.comp_def, TailElem.posAtom?]

lemma Rule.tail_eraseIdx_negAtom? (r : Rule) {i : Nat} (hi : i < r.pos.length) :
    (r.tail.eraseIdx i).filterMap TailElem.negAtom? = r.neg := by
  have hlen : i < (r.pos.map (TailElem.atom · false)).length := by simpa using hi
  rw [Rule.tail, List.append_assoc, List.eraseIdx_append_of_lt_length hlen, eraseIdx_map]
  simp [List.filterMap_map, Function.comp_def, TailElem.negAtom?,
    List.filterMap_eq_nil_iff.mpr fun _ _ => rfl]

/-- What a successful unification of tail `i` tells: the atom exists and has the source's
head predicate. -/
lemma unifyRules_some {ctx : Context} {tgt src : Rule} {i : Nat} {σ : Subst × Subst}
    (h : unifyRules ctx tgt i src = some σ) :
    ∃ hi : i < tgt.pos.length, tgt.pos[i].pred = src.decl := by
  unfold unifyRules at h
  split at h
  · rename_i a ha
    obtain ⟨hi, rfl⟩ := List.getElem?_eq_some_iff.mp ha
    exact ⟨hi, ctx.pred_eq_of_unifyAtoms h⟩
  · cases h

/-- The shape of a resolvent: the target's head predicate, positive predicates taken from the
target without atom `i` and from the source, negated predicates from both negated tails. -/
lemma applyUnifier_shape {ctx : Context} {σ : Subst × Subst} {tgt src res : Rule} {i : Nat}
    (hi : i < tgt.pos.length) (h : applyUnifier ctx σ tgt i src = some res) :
    res.decl = tgt.decl ∧
    List.Sublist (res.pos.map Atom.pred) ((tgt.pos.map Atom.pred).eraseIdx i ++ src.pos.map Atom.pred) ∧
    List.Sublist (res.neg.map Atom.pred) (tgt.neg.map Atom.pred ++ src.neg.map Atom.pred) := by
  unfold applyUnifier at h
  simp only [Option.map_eq_some'] at h
  obtain ⟨s, -, rfl⟩ := h
  have hpos := (dedupFirst_sublist ((tgt.tail.eraseIdx i).map (TailElem.subst σ.1) ++
    src.tail.map (TailElem.subst σ.2))).filterMap TailElem.posAtom?
  have hneg := (dedupFirst_sublist ((tgt.tail.eraseIdx i).map (TailElem.subst σ.1) ++
    src.tail.map (TailElem.subst σ.2))).filterMap TailElem.negAtom?
  simp only [List.filterMap_append, List.filterMap_map, Function.comp_def,
    TailElem.posAtom?_subst, TailElem.negAtom?_subst, ← List.map_filterMap,
    Rule.tail_eraseIdx_posAtom? tgt hi, Rule.tail_eraseIdx_negAtom? tgt hi,
    Rule.tail_filterMap_posAtom?, Rule.tail_filterMap_negAtom?] at hpos hneg
  refine ⟨by split <;> rfl, ?_, ?_⟩
  · have := hpos.map Atom.pred
    split <;> simpa [mkRule, removeDuplicateTails, Rule.normVars, Rule.subst, Function.comp_def,
      eraseIdx_map] using this
  · have := hneg.map Atom.pred
    split <;> simpa [mkRule, removeDuplicateTails, Rule.normVars, Rule.subst, Function.comp_def]
      using this

/-- The shape of what `try_to_inline_rule` returns, stated on the caller's target. -/
lemma tryToInlineRule_shape {ctx : Context} {cv cv' : Converters} {tgt src res : Rule} {i : Nat}
    (h : tryToInlineRule ctx cv tgt src i = (some res, cv')) :
    ∃ hi : i < tgt.pos.length, tgt.pos[i].pred = src.decl ∧ res.decl = tgt.decl ∧
      List.Sublist (res.pos.map Atom.pred)
        ((tgt.pos.map Atom.pred).eraseIdx i ++ src.pos.map Atom.pred) ∧
      List.Sublist (res.neg.map Atom.pred) (tgt.neg.map Atom.pred ++ src.neg.map Atom.pred) := by
  unfold tryToInlineRule at h
  split at h
  · cases h
  split at h
  · cases h
  rename_i σ hσ
  split at h
  · cases h
  rename_i res' hres
  cases h
  obtain ⟨hi, hpred⟩ := unifyRules_some hσ
  obtain ⟨hd, hp, hn⟩ := applyUnifier_shape hi hres
  have hlen : tgt.normVars.pos.length = tgt.pos.length := by
    have := congrArg List.length (Rule.normVars_pos tgt)
    rwa [List.length_map, List.length_map] at this
  have hget : tgt.normVars.pos[i].pred = tgt.pos[i].pred := by
    have := congrArg (·[i]?) (Rule.normVars_pos tgt)
    simp only [List.getElem?_map, List.getElem?_eq_getElem hi, List.getElem?_eq_getElem (hlen ▸ hi),
      Option.map_some', Option.some.injEq] at this
    exact this
  refine ⟨hlen ▸ hi, hget ▸ hpred, hd, ?_, ?_⟩
  · simpa using hp
  · simpa using hn

/-- A resolvent keeps every positive tail predicate of the target but the resolved one, and
every positive tail predicate of the source. -/
lemma applyUnifier_pos_subset {ctx : Context} {σ : Subst × Subst} {tgt src res : Rule} {i : Nat}
    (hi : i < tgt.pos.length) (h : applyUnifier ctx σ tgt i src = some res) :
    (tgt.pos.map Atom.pred).eraseIdx i ++ src.pos.map Atom.pred ⊆ res.pos.map Atom.pred := by
  unfold applyUnifier at h
  simp only [Option.map_eq_some'] at h
  obtain ⟨s, -, rfl⟩ := h
  have hpos : ((tgt.tail.eraseIdx i).map (TailElem.subst σ.1) ++
      src.tail.map (TailElem.subst σ.2)).filterMap TailElem.posAtom? ⊆
      (dedupFirst ((tgt.tail.eraseIdx i).map (TailElem.subst σ.1) ++
        src.tail.map (TailElem.subst σ.2))).filterMap TailElem.posAtom? := fun x hx => by
    obtain ⟨e, he, hx⟩ := List.mem_filterMap.mp hx
    exact List.mem_filterMap.mpr ⟨e, subset_dedupFirst _ he, hx⟩
  simp only [List.filterMap_append, List.filterMap_map, Function.comp_def,
    TailElem.posAtom?_subst, ← List.map_filterMap, Rule.tail_eraseIdx_posAtom? tgt hi,
    Rule.tail_filterMap_posAtom?] at hpos
  have := List.map_subset Atom.pred hpos
  split <;> simpa [mkRule, removeDuplicateTails, Rule.normVars, Rule.subst, Function.comp_def,
    eraseIdx_map] using this

lemma tryToInlineRule_pos_subset {ctx : Context} {cv cv' : Converters} {tgt src res : Rule}
    {i : Nat} (h : tryToInlineRule ctx cv tgt src i = (some res, cv')) :
    (tgt.pos.map Atom.pred).eraseIdx i ++ src.pos.map Atom.pred ⊆ res.pos.map Atom.pred := by
  unfold tryToInlineRule at h
  split at h
  · cases h
  split at h
  · cases h
  rename_i σ hσ
  split at h
  · cases h
  rename_i res' hres
  cases h
  obtain ⟨hi, -⟩ := unifyRules_some hσ
  simpa using applyUnifier_pos_subset hi hres

/-- `try_to_inline_rule` writes only to the proof converter. -/
@[simp] lemma tryToInlineRule_mc (ctx : Context) (cv : Converters) (tgt src : Rule) (i : Nat) :
    (tryToInlineRule ctx cv tgt src i).2.mc = cv.mc := by
  unfold tryToInlineRule
  split
  · rfl
  split
  · rfl
  split <;> rfl

end RuleInliner
