import RuleInliner.Unifier

/-!
# The inlining planner

The state of a `mk_rule_inliner` object and the predicate-level analyses of
`plan_inlining`: `count_pred_occurrences`, the admissibility oracle `inlining_allowed`,
`create_allowed_rule_set`, the cycle breaker `forbid_preds_from_cycles` and the multiplier
guard `forbid_multiple_multipliers`.

The object's counters (`obj_map<func_decl, unsigned>`, read as 0 for a missing key) are
functions `Pred → Nat`, and its predicate sets are lists. Of the object's fields only those
that outlive a call of `inline_linear` are here; the visitors and indices that
`inline_linear` resets on entry are local to `Linear/Basic.lean`. The two `goto`s of
`forbid_multiple_multipliers` leave the scan of the current predicate, which the scan
states below record in the flag `jumped`.
-/

namespace RuleInliner

/-- A per-predicate counter (`obj_map<func_decl, unsigned>`). -/
abbrev Counter := Pred → Nat

/-- Add one to the count of `p` (`obj_map::inc`). -/
def Counter.inc (c : Counter) (p : Pred) : Counter := fun q => if q = p then c q + 1 else c q

/-- Overwrite the count of `p`. -/
def Counter.set (c : Counter) (p : Pred) (v : Nat) : Counter := fun q => if q = p then v else c q

/-- The fields of a `mk_rule_inliner` object that the planner and the three stages share. -/
structure Inliner where
  headPredCtr : Counter
  headPredNonEmptyTailsCtr : Counter
  tailPredCtr : Counter
  predsWithNegOccurrence : List Pred
  predsWithFacts : List Pred
  forbiddenPreds : List Pred
  inlinedRules : RuleSet
  /-- `m_mc` and `m_pc`. -/
  cv : Converters

namespace Inliner

/-- A freshly constructed object. -/
def init : Inliner := ⟨fun _ => 0, fun _ => 0, fun _ => 0, [], [], [], [], ⟨none, none⟩⟩

/-- Add `p` to `m_forbidden_preds`. -/
def forbid (st : Inliner) (p : Pred) : Inliner :=
  { st with forbiddenPreds := st.forbiddenPreds.insert p }

/-- Count one rule into the occurrence counters. -/
def countRule (st : Inliner) (r : Rule) : Inliner :=
  { st with
    headPredCtr := st.headPredCtr.inc r.decl
    headPredNonEmptyTailsCtr :=
      if r.tail = [] then st.headPredNonEmptyTailsCtr else st.headPredNonEmptyTailsCtr.inc r.decl
    tailPredCtr := r.tailPreds.foldl Counter.inc st.tailPredCtr
    predsWithNegOccurrence := (r.neg.map Atom.pred).foldl (fun s p => s.insert p)
      st.predsWithNegOccurrence }

/-- `mk_rule_inliner::count_pred_occurrences`. -/
def countPredOccurrences (ctx : Context) (st : Inliner) (orig : RuleSet) : Inliner :=
  orig.foldl countRule
    { st with predsWithFacts := ctx.nonEmptyPredicates.foldl (fun s p => s.insert p) st.predsWithFacts }

/-- `mk_rule_inliner::inlining_allowed`: the soundness conditions, then the blowup bound. -/
def inliningAllowed (ctx : Context) (st : Inliner) (p : Pred) : Bool :=
  !(ctx.isOutputPredicate p || p ∈ st.predsWithFacts || p ∈ st.predsWithNegOccurrence ||
      p ∈ st.forbiddenPreds) &&
    (st.headPredCtr p ≤ 1 || (st.tailPredCtr p ≤ 1 && st.headPredCtr p ≤ 4))

/-- `mk_rule_inliner::create_allowed_rule_set`: the rules of admissible predicates, closed. -/
def createAllowedRuleSet (ctx : Context) (st : Inliner) (orig : RuleSet) :
    Except PassError RuleSet :=
  let res : RuleSet := orig.filter fun r => st.inliningAllowed ctx r.decl
  if res.close then .ok res else .error .verifyFailed

/-- One stratum of `forbid_preds_from_cycles`: forbid the first predicate of a stratum with
more than one predicate. -/
def cycleStep (acc : Inliner × Bool) : List Pred → Inliner × Bool
  | p :: _ :: _ => (acc.1.forbid p, true)
  | _ => acc

/-- `mk_rule_inliner::forbid_preds_from_cycles`. -/
def forbidPredsFromCycles (st : Inliner) (X : RuleSet) : Inliner × Bool :=
  X.strats.foldl cycleStep (st, false)

/-- The locals of the first loop of `forbid_multiple_multipliers` while it scans the rules
of one predicate. -/
structure HeadScan where
  st : Inliner
  isMultiHeadPred : Bool
  jumped : Bool
  somethingForbidden : Bool

/-- One positive tail atom of a rule of `headPred`, in the first loop of
`forbid_multiple_multipliers`. -/
def headScanAtom (ctx : Context) (headPred : Pred) (isMultiOccurrencePred : Bool)
    (s : HeadScan) (a : Atom) : HeadScan :=
  let q := a.pred
  let cnt := s.st.headPredCtr q
  if s.jumped || !s.st.inliningAllowed ctx q || cnt ≤ 1 then s
  else if s.isMultiHeadPred then
    { s with st := s.st.forbid headPred, jumped := true, somethingForbidden := true }
  else if isMultiOccurrencePred then
    { s with st := s.st.forbid q, somethingForbidden := true }
  else
    { s with isMultiHeadPred := true,
             st := { s.st with headPredCtr := s.st.headPredCtr.set headPred
                                                 (s.st.headPredCtr headPred * cnt) } }

/-- One stratum of the first loop of `forbid_multiple_multipliers`. -/
def headScanStratum (ctx : Context) (X : RuleSet) (acc : Inliner × Bool) :
    List Pred → Inliner × Bool
  | [] => acc
  | p :: _ =>
    let s := (X.predicateRules p).foldl
      (fun s r => r.pos.foldl (headScanAtom ctx p (acc.1.tailPredCtr p > 1)) s)
      ⟨acc.1, acc.1.headPredCtr p > 1, false, acc.2⟩
    (s.st, s.somethingForbidden)

/-- The locals of the second loop of `forbid_multiple_multipliers` on one rule. -/
structure TailScan where
  st : Inliner
  hasMultiHeadPred : Bool
  somethingForbidden : Bool

/-- One positive tail atom of a rule in the second loop of `forbid_multiple_multipliers`. -/
def tailScanAtom (ctx : Context) (s : TailScan) (a : Atom) : TailScan :=
  let q := a.pred
  if !s.st.inliningAllowed ctx q || s.st.headPredCtr q ≤ 1 then s
  else if s.hasMultiHeadPred then { s with st := s.st.forbid q, somethingForbidden := true }
  else { s with hasMultiHeadPred := true }

/-- One rule of the second loop of `forbid_multiple_multipliers`. -/
def tailScanRule (ctx : Context) (acc : Inliner × Bool) (r : Rule) : Inliner × Bool :=
  if acc.1.inliningAllowed ctx r.decl then acc
  else
    let s := r.pos.foldl (tailScanAtom ctx) ⟨acc.1, false, acc.2⟩
    (s.st, s.somethingForbidden)

/-- `mk_rule_inliner::forbid_multiple_multipliers`. -/
def forbidMultipleMultipliers (ctx : Context) (st : Inliner) (orig proposed : RuleSet) :
    Inliner × Bool :=
  orig.foldl (tailScanRule ctx) (proposed.strats.foldl (headScanStratum ctx proposed) (st, false))

end Inliner

end RuleInliner
