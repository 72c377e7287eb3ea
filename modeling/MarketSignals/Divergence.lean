import MarketSignals.Scalar
import MarketSignals.Histogram

/-!
# Divergence of one histogram from another

The Kullback-Leibler divergence of the recent samples from a reference,

  `D = Σ p_i · ln (p_i / q_i)` over the bins with `p_i > 0`,

where the reference shares are smoothed, `q_i = (ref_i / n + ε) / (1 + bins · ε)`,
so that a bin the reference never saw costs much and not everything.  Under the
hypothesis that both histograms come from one source, the statistic
`2 · (n m / (n + m)) · D` is close to chi-squared with one degree of freedom less
than there are bins.
-/

namespace MarketSignals

variable {α : Type} [Scalar α]

/-- What the smoothed shares are divided by so that they sum to one. -/
def smoothingNorm (bins : Nat) (epsilon : α) : α := 1 + Scalar.ofCount bins * epsilon

/-- The smoothed share of a bin that holds `count` of the `total` reference
samples. -/
def smoothedShare (bins total : Nat) (epsilon : α) (count : Nat) : α :=
  (Scalar.ofCount count / Scalar.ofCount total + epsilon) / smoothingNorm bins epsilon

/-- What a bin adds to the divergence, given the recent share and the reference
share. -/
def divergenceTerm (p q : α) : α := p * Scalar.ln (p / q)

/-- The divergence summed over the bins the recent histogram has samples in, in
order of the bins. -/
def divergenceSum (recent reference : Histogram) (epsilon : α) : α :=
  ((recent.counts.toList.zip reference.counts.toList).filter fun c => 0 < c.1).foldl
    (fun acc c =>
      acc + divergenceTerm (Scalar.ofCount c.1 / Scalar.ofCount recent.total)
        (smoothedShare reference.nBins reference.total epsilon c.2)) 0

/-- The divergence of the recent histogram from the smoothed reference.  It is
never negative; a sum below zero is rounding and counts as zero. -/
def smoothedDivergence (recent reference : Histogram) (epsilon : α) : α :=
  let sum := divergenceSum recent reference epsilon
  if 0 < sum then sum else 0

/-- The two-sample statistic for a reference of `n` and a window of `m` samples. -/
def twoSampleStatistic (n m divergence : α) : α := 2 * (n * m / (n + m)) * divergence

end MarketSignals
