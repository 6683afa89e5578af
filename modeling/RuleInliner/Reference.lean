import RuleInliner.Unifier

/-!
# Reference collaborators

Concrete instances of the collaborators `Context` leaves open, modelled from the spec, for
running the pass on given rule sets: syntactic unification with occurs check (the spec's
"MGU of two terms in disjoint variable offsets", the source shifted by the variable count
as `rule_unifier::unify_rules` sets `m_deltas[1]`), a simplifier that keeps every
interpreted tail and reports none unsatisfiable, and a `fix_unbound_vars` that leaves the
interpreted tail as it is. Unification runs on fuel: the size of the equations times the
number of their variables bounds its steps.
-/

namespace RuleInliner

/-- Whether variable `x` occurs in a term. -/
def Term.occurs (x : Nat) : Term → Bool
  | .var i => i = x
  | .sym _ => false
  | .app s t => s.occurs x || t.occurs x

/-- The number of symbols of a term. -/
def Term.size : Term → Nat
  | .var _ => 1
  | .sym _ => 1
  | .app s t => s.size + t.size + 1

/-- Extend a substitution by the binding `x ↦ t`, applied to every earlier binding. -/
def Subst.bind (σ : Subst) (x : Nat) (t : Term) : Subst :=
  fun v => (σ v).subst fun w => if w = x then t else .var w

/-- Robinson's unification of a list of equations, on fuel. -/
def unifyEqs : Nat → List (Term × Term) → Subst → Option Subst
  | 0, _, _ => none
  | _ + 1, [], σ => some σ
  | n + 1, (s, t) :: eqs, σ =>
    match s.subst σ, t.subst σ with
    | .var x, .var y => if x = y then unifyEqs n eqs σ else unifyEqs n eqs (σ.bind x (.var y))
    | .var x, u => if u.occurs x then none else unifyEqs n eqs (σ.bind x u)
    | u, .var x => if u.occurs x then none else unifyEqs n eqs (σ.bind x u)
    | .sym f, .sym g => if f = g then unifyEqs n eqs σ else none
    | .app s₁ s₂, .app t₁ t₂ => unifyEqs n ((s₁, t₁) :: (s₂, t₂) :: eqs) σ
    | _, _ => none

/-- Modelled from the spec: the reference `m_unif` unifies two argument lists, the second
shifted by `varCnt`. -/
def referenceUnif (varCnt : Nat) (as bs : List Term) : Option (Subst × Subst) :=
  if as.length ≠ bs.length then none else
  let eqs := as.zip (bs.map (Term.subst fun v => .var (v + varCnt)))
  let size := (eqs.map fun e => e.1.size + e.2.size).foldr (· + ·) 0
  (unifyEqs ((size + 1) * (size + 1)) eqs Term.var).map fun σ => (σ, fun v => σ (v + varCnt))

/-- Modelled from the spec: a context with the reference collaborators. -/
def Context.reference (outputs facts : List Pred) (params : Params.Obj) : Context where
  outputPredicates := outputs
  nonEmptyPredicates := facts
  fixUnboundVars := false
  params := params
  unif := referenceUnif
  closeUnbound := Rule.interp
  simplify := fun r => some (Term.var, r.interp)

end RuleInliner
