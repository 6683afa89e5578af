import RuleInliner.Eager.Basic

/-!
# Linear inlining

Model of `mk_rule_inliner::inline_linear` with its `visitor`, `add_rule` and `del_rule`.
The stage keeps, per rule position `i`, the current rule `acc[i]` and the flags `valid`,
`can_remove` and `can_expand`; the head and tail visitors map each atom to the list of
positions holding it (`m_positions`), and the unification indices `m_head_index` and
`m_tail_index` hold the atoms inserted so far (a substitution tree stores each atom once,
and `del_rule` never removes one). A query `index.unify(e, visitor)` appends the positions
of every stored atom that unifies with `e`.

The driver's `while (true)` loop at each position runs on fuel (`linearLoop`); one pass of its
body is `linearStep`, which reports whether the loop goes on. `try_to_inline_rule` renames the
variables of `acc[i]` in place before anything else, so `acc[i]` is replaced by its
normalised form even when inlining then fails; `del_position` on an atom the visitor does not
hold dereferences a null entry, which the model reports as `nullDeref`.
-/

namespace RuleInliner

/-- A visitor's position map (`obj_map<expr, unsigned_vector>`). -/
abbrev Positions := List (Atom × List Nat)

namespace Positions

/-- The positions stored for an atom (`m_positions.find`). -/
def find (m : Positions) (e : Atom) : List Nat := ((m.find? (·.1 = e)).map (·.2)).getD []

/-- `visitor::add_position`: append `j` to the positions of `e`, creating the entry. -/
def addPosition (e : Atom) (j : Nat) : Positions → Positions
  | [] => [(e, [j])]
  | (a, js) :: m => if a = e then (a, js ++ [j]) :: m else (a, js) :: addPosition e j m

/-- `visitor::del_position`: remove the first `j` from the positions of `e`; a missing entry
is a null dereference. -/
def delPosition (e : Atom) (j : Nat) : Positions → Except PassError Positions
  | [] => .error .nullDeref
  | (a, js) :: m =>
    if a = e then .ok ((a, js.erase j) :: m)
    else match delPosition e j m with
      | .error err => .error err
      | .ok m => .ok ((a, js) :: m)

end Positions

/-- Two atoms unify once their variables are renamed apart. -/
def Context.unifiable (ctx : Context) (a b : Atom) : Bool :=
  (ctx.unifyAtoms ((a.vars ++ b.vars).foldr max 0 + 1) a b).isSome

/-- `index.unify(e, visitor)`: the positions of every stored atom that unifies with `e`. -/
def queryIndex (ctx : Context) (index : List Atom) (m : Positions) (e : Atom) : List Nat :=
  index.flatMap fun a => if ctx.unifiable e a then m.find a else []

/-- The state of `inline_linear`: the rules, the per-position flags, the two visitors and the
two indices, the converters and `done_something`. -/
structure LinearState where
  acc : List Rule
  valid : List Bool
  canRemove : List Bool
  canExpand : List Bool
  headPositions : Positions
  tailPositions : Positions
  headIndex : List Atom
  tailIndex : List Atom
  cv : Converters
  doneSomething : Bool

namespace LinearState

/-- `mk_rule_inliner::add_rule`: register rule `r` at position `i`. -/
def addRule (ctx : Context) (facts : List Pred) (s : LinearState) (r : Rule) (i : Nat) :
    LinearState :=
  let s := { s with headPositions := Positions.addPosition r.head i s.headPositions,
                    headIndex := s.headIndex.insert r.head }
  let s := if ctx.isOutputPredicate r.decl || r.decl ∈ facts
    then { s with canRemove := s.canRemove.set i false } else s
  let s := (r.pos ++ r.neg).foldl (fun s t =>
    { s with tailPositions := Positions.addPosition t i s.tailPositions,
             tailIndex := s.tailIndex.insert t }) s
  let canExp := match r.pos, r.neg with
    | [a], [] => !(a.pred ∈ facts) && !ctx.isOutputPredicate a.pred
    | _, _ => false
  { s with canExpand := s.canExpand.set i canExp }

/-- `mk_rule_inliner::del_rule`: unregister rule `r` from position `i`. -/
def delRule (s : LinearState) (r : Rule) (i : Nat) : Except PassError LinearState :=
  match Positions.delPosition r.head i s.headPositions with
  | .error e => .error e
  | .ok hp =>
    match (r.pos ++ r.neg).foldlM (fun m t => Positions.delPosition t i m) s.tailPositions with
    | .error e => .error e
    | .ok tp => .ok { s with headPositions := hp, tailPositions := tp }

end LinearState

/-- One pass of the body of `while (true)` at position `i`: `(true, s)` when the loop goes on
from `s`, `(false, s)` at a `break`. -/
def linearStep (ctx : Context) (facts : List Pred) (allowBranching : Bool) (i : Nat)
    (s : LinearState) : Except PassError (Bool × LinearState) :=
  let r := s.acc[i]!
  if !s.valid[i]! || !s.canExpand[i]! then .ok (false, s)
  else
    match queryIndex ctx s.headIndex s.headPositions r.pos[0]! with
    | [j] =>
      if !s.canRemove[j]! || !s.valid[j]! || i = j then .ok (false, s)
      else
        let r2 := s.acc[j]!
        let numTailUnifiers := (queryIndex ctx s.tailIndex s.tailPositions r2.head).length
        if !allowBranching && numTailUnifiers ≠ 1 then .ok (false, s)
        else
          let res := tryToInlineRule ctx s.cv r r2 0
          let s := { s with acc := s.acc.set i r.normVars }
          match res.1 with
          | none => .ok (false, s)
          | some rlRes =>
            match s.delRule r.normVars i with
            | .error e => .error e
            | .ok s =>
              let s := s.addRule ctx facts rlRes i
              let s := { s with acc := s.acc.set i rlRes, canExpand := s.canExpand.set i s.canExpand[j]!,
                                cv := res.2, doneSomething := true }
              if numTailUnifiers = 1 then
                (({ s with valid := s.valid.set j false, cv := s.cv.delRule r2 } : LinearState).delRule
                  r2 j).map fun s => (true, s)
              else .ok (true, s)
    | _ => .ok (false, s)

/-- The `while (true)` loop at position `i`, on fuel. -/
def linearLoop (ctx : Context) (facts : List Pred) (allowBranching : Bool) (i : Nat) :
    Nat → LinearState → Except PassError LinearState
  | 0, _ => .error .outOfFuel
  | n + 1, s =>
    match linearStep ctx facts allowBranching i s with
    | .error e => .error e
    | .ok (true, s) => linearLoop ctx facts allowBranching i n s
    | .ok (false, s) => .ok s

/-- The driver: the loop at every position in turn. -/
def linearDriver (ctx : Context) (fuel : Nat) (facts : List Pred) (allowBranching : Bool) :
    List Nat → LinearState → Except PassError LinearState
  | [], s => .ok s
  | i :: is, s =>
    match linearLoop ctx facts allowBranching i fuel s with
    | .error e => .error e
    | .ok s => linearDriver ctx fuel facts allowBranching is s

/-- The state after the reset and after `add_rule` of every rule of `rules`. -/
def linearInit (ctx : Context) (facts : List Pred) (cv : Converters) (rules : RuleSet) :
    LinearState :=
  let sz := rules.length
  (List.range sz).foldl (fun s i => s.addRule ctx facts rules[i]! i)
    ⟨rules, List.replicate sz true, List.replicate sz true, List.replicate sz true,
      [], [], [], [], cv, false⟩

/-- `mk_rule_inliner::inline_linear`: the new rule set (the valid rules, or the old rules as
renamed in place when nothing was done), `done_something` and the converters. -/
def inlineLinear (ctx : Context) (fuel : Nat) (st : Inliner) (rules : RuleSet) :
    Except PassError (RuleSet × Bool × Converters) :=
  let allowBranching := ctx.params.getBool ":inline-linear-branch" false
  match linearDriver ctx fuel st.predsWithFacts allowBranching (List.range rules.length)
      (linearInit ctx st.predsWithFacts st.cv rules) with
  | .error e => .error e
  | .ok s =>
    if s.doneSomething then
      .ok (((s.acc.zip s.valid).filter (·.2)).map (·.1), true, s.cv)
    else .ok (s.acc, false, s.cv)

end RuleInliner
