import MarketSignals.Scalar
import MarketSignals.Error

/-!
# The upper tail of the chi-squared distribution

With `k` degrees of freedom the tail beyond `s` is the regularised upper
incomplete gamma function `Q(k/2, s/2)`.  It is computed by a continued fraction
where the argument is large and by the power series of its complement where it
is small; the logarithm of the gamma function is Lanczos's approximation.

Both expansions run until a term no longer matters.  The number of terms is
bounded by `termLimit`, far beyond what convergence takes.
-/

namespace MarketSignals.ChiSquared

/-- A bound on the terms of either expansion. -/
def termLimit : Nat := 100000000

/-- The coefficients of the approximation to the gamma function, the first
standing alone and the others over `x, x + 1, …`. -/
def lanczosFirst : Float := 2.48574089138753565546e-5

/-- The coefficients over `x, x + 1, …`. -/
def lanczosRest : List Float :=
  [1.05142378581721974210, -3.45687097222016235469, 4.51227709466894823700,
    -2.98285225323576655721, 1.05639711577126713077, -1.95428773191645869583e-1,
    1.70970543404441224307e-2, -5.71926117404305781283e-4, 4.63399473359905636708e-6,
    -2.71994908488607703910e-9]

/-- The base of the natural logarithm. -/
def eulerNumber : Float := 2.71828182845904523536

/-- The logarithm of the gamma function, for arguments from one half. -/
def lnGamma (x : Float) : Float :=
  let sum := lanczosRest.zipIdx.foldl
    (fun acc (d, i) => acc + d / (x + Float.ofNat (i + 1) - 1)) lanczosFirst
  ln sum + 0.6207822376352452223455184457816472122518527279025978 +
    (x - 0.5) * ln ((x - 0.5 + 10.900511) / eulerNumber)

/-- The logarithm of the factor in front of both expansions. -/
def lnPrefactor (a x : Float) : Float := a * ln x - x - lnGamma a

/-- Below this the factor is zero as a float. -/
def leastExponent : Float := -709.78271289338399

/-- The power series, term by term: `index` runs up from `a`. -/
def seriesSum (x : Float) : (fuel : Nat) → (index term sum : Float) → Float
  | 0, _, _, sum => sum
  | fuel + 1, index, term, sum =>
      let index := index + 1
      let term := term * (x / index)
      let sum := sum + term
      if term / sum ≤ 1e-15 then sum else seriesSum x fuel index term sum

/-- The lower incomplete gamma function, for `x` not above both one and `a`. -/
def lowerTail (a x : Float) : Float :=
  if x ≤ 1.1102230246251565e-15 then 0
  else
    let ax := lnPrefactor a x
    if ax < leastExponent then if a < x then 1 else 0
    else exp ax * seriesSum x termLimit a 1 1 / a

/-- The running values of the continued fraction: two numerators, two
denominators and the three counters of the recurrence. -/
structure Fraction where
  y : Float
  z : Float
  c : Float
  numBefore : Float
  num : Float
  denBefore : Float
  den : Float

/-- One step of the recurrence, before any rescaling. -/
def Fraction.next (f : Fraction) : Fraction :=
  let y := f.y + 1
  let z := f.z + 2
  let c := f.c + 1
  let yc := y * c
  { y, z, c
    numBefore := f.num
    num := f.num * z - f.numBefore * yc
    denBefore := f.den
    den := f.den * z - f.denBefore * yc }

/-- Scales numerators and denominators down together once they are large, which
leaves their quotients alone. -/
def Fraction.rescaled (f : Fraction) : Fraction :=
  if f.num.abs > 4503599627370496 then
    let small := 2.22044604925031308085e-16
    { f with
      numBefore := f.numBefore * small
      num := f.num * small
      denBefore := f.denBefore * small
      den := f.den * small }
  else f

/-- The value of the continued fraction; `value` is the last convergent. -/
def fractionValue : (fuel : Nat) → Fraction → (value : Float) → Float
  | 0, _, value => value
  | fuel + 1, f, value =>
      let next := f.next
      if next.den == 0 then fractionValue fuel next.rescaled value
      else
        let convergent := next.num / next.den
        if ((value - convergent) / convergent).abs ≤ 1e-15 then convergent
        else fractionValue fuel next.rescaled convergent

/-- The regularised upper incomplete gamma function. -/
def upperTail (a x : Float) : Float :=
  if x < 1 || x ≤ a then 1 - lowerTail a x
  else
    let ax := lnPrefactor a x
    if ax < leastExponent then if a < x then 0 else 1
    else
      let y := 1 - a
      let z := x + y + 1
      let start : Fraction :=
        { y, z, c := 0, numBefore := 1, num := x + 1, denBefore := x, den := z * x }
      fractionValue termLimit start (start.num / start.den) * exp ax

/-- What is taken from a statistics library. -/
class GammaLibrary where
  /-- The regularised upper incomplete gamma function, for positive arguments. -/
  upperTail : Float → Float → Float

instance : GammaLibrary := ⟨upperTail⟩

/-- A value held between zero and one. -/
def clampToUnit (p : Float) : Float := if p < 0 then 0 else if 1 < p then 1 else p

/-- The upper tail beyond `statistic` with `degrees` of freedom.  Half the
statistic is the argument of the incomplete gamma function, which does not take
zero. -/
def survival [GammaLibrary] (statistic : Float) (degrees : Nat) : Except Fault Float :=
  if degrees = 0 then .error (.refused (.invariant "chi-squared test with zero degrees of freedom"))
  else if statistic.isNaN then .error (.refused (.invariant "chi-squared statistic is NaN"))
  else if statistic ≤ 0 then .ok 1
  else if statistic.isInf then .ok 0
  else
    let x := statistic * 0.5
    if x == 0 then .error (.panicked (.text "incomplete gamma function of zero"))
    else .ok (clampToUnit (GammaLibrary.upperTail (Float.ofNat degrees * 0.5) x))

end MarketSignals.ChiSquared
