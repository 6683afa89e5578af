import RuleInliner.Linear.Basic

/-!
# The pass

Model of `mk_rule_inliner::operator()`: plan the inlining, transform the source rules
(bulk inlining), close the result (`VERIFY`), then run eager and, unless `:inline-linear`
is off, linear inlining. The result is the new rule set, or `none` for the null pointer that
means "no change", together with the object after the run; its converters hold the entries
of the `horn_subsume_model_converter` and `replace_proof_converter` that `operator()`
composes onto the caller's `mc` and `pc` when something was done. `mcReq` and `pcReq` say
whether the caller passed converters at all.
-/

namespace RuleInliner

namespace Inliner

/-- `mk_rule_inliner::operator()`. -/
def run (ctx : Context) (fuel : Nat) (st : Inliner) (source : RuleSet) (mcReq pcReq : Bool) :
    Except PassError (Option RuleSet × Inliner) :=
  if source = [] then .ok (none, st) else
  let st := { st with cv := ⟨if mcReq then some [] else none, if pcReq then some [] else none⟩ }
  match st.planInlining ctx fuel source with
  | .error e => .error e
  | .ok st =>
    match transformRules ctx fuel st source [] false st.cv with
    | .error e => .error e
    | .ok (res, done1, cv) =>
      if !RuleSet.close res then .error .verifyFailed else
      match doEagerInlining ctx fuel { st with cv := cv } res with
      | .error e => .error e
      | .ok (res, done2, cv) =>
        let linear : Except PassError (RuleSet × Bool × Converters) :=
          if ctx.params.getBool ":inline-linear" true
          then inlineLinear ctx fuel { st with cv := cv } res else .ok (res, false, cv)
        match linear with
        | .error e => .error e
        | .ok (res, done3, cv) =>
          .ok (if done1 || done2 || done3 then some res else none, { st with cv := cv })

end Inliner

end RuleInliner
