import SureCode.Scalar

/-!
# Binomial tails

How many failures out of `n` samples still speak for a failure rate below a given one: the greatest
`k` for which a binomial variable with that rate stays at or below `k` no more often than the
confidence allows. The terms of the distribution are followed by their logarithms, so that they do
not vanish for large `n`.
-/

namespace SureCode

variable {κ : Type}

/-- Why there is no bound. -/
inductive TailError (κ : Type) where
  | errorRate (rate : κ)
  | confidence (value : κ)
  | tooFewSamples (samples : Nat) (rate confidence : κ)
deriving DecidableEq, Repr

/-- The wording of an error, given the way to write a scalar. -/
def TailError.message (write : κ → String) : TailError κ → String
  | errorRate rate => "error rate " ++ write rate ++ " must lie strictly between 0 and 1"
  | confidence c => "confidence " ++ write c ++ " must lie strictly between 0 and 1"
  | tooFewSamples samples rate c =>
    toString samples ++ " samples are too few for error rate " ++ write rate ++ " at confidence "
      ++ write c

namespace Tail

/-- A scalar strictly between zero and one. -/
def isProbability [Scalar κ] (x : κ) : Bool :=
  decide (Scalar.zero < x) && decide (x < Scalar.one)

variable [LogScalar κ]

/-- The logarithm of how much likelier success is than failure. -/
def logOdds (rate : κ) : κ := LogScalar.log rate - LogScalar.log (Scalar.one - rate)

/-- The logarithm of the probability of `successes` out of `samples`, given that of one success
less. -/
def logTerm (samples : Nat) (rate last : κ) : Nat → κ
  | 0 => (samples : κ) * LogScalar.log (Scalar.one - rate)
  | successes + 1 =>
    last + LogScalar.log ((samples - successes : Nat) : κ)
      - LogScalar.log ((successes + 1 : Nat) : κ) + logOdds rate

/-- Adds up terms from `successes` on until the sum passes the confidence. The answer is the last
number of successes before that. -/
def boundFrom (samples : Nat) (rate confidence : κ) :
    Nat → Nat → κ → κ → Except (TailError κ) Nat
  | 0, _, _, _ => .ok samples
  | terms + 1, successes, last, sum =>
    let term := logTerm samples rate last successes
    let sum := sum + LogScalar.exp term
    if confidence < sum then
      match successes with
      | 0 => .error (.tooFewSamples samples rate confidence)
      | before + 1 => .ok before
    else boundFrom samples rate confidence terms (successes + 1) term sum

/-- The greatest number of successes that a binomial variable stays at or below with at most the
given probability. -/
def bound (samples : Nat) (rate confidence : κ) : Except (TailError κ) Nat :=
  if !isProbability rate then .error (.errorRate rate)
  else if !isProbability confidence then .error (.confidence confidence)
  else boundFrom samples rate confidence (samples + 1) 0 Scalar.zero Scalar.zero

end Tail

end SureCode
