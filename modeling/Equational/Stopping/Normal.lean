/-!
# Tails of the normal distribution

The probability that a normal value exceeds a threshold is taken from a complementary error
function, which is a parameter. The one that is given here is computed from rational
approximations on five ranges of its argument. The leading part of the argument is squared
exactly, so that the rounding of the square does not show in the exponential.

The argument of the exponential function is taken apart into a whole multiple of the logarithm of
two and a remainder of at most half of it. The remainder goes through a rational approximation,
and the multiple into the exponent of the result. All steps are spelled out, so that the last
digit of a result does not depend on where it is computed.
-/

namespace Equational

def polynomial (x : Float) : List Float → Float
  | [] => 0.0
  | [c] => c
  | c :: cs => c + x * polynomial x cs

def magnitudeWord (x : Float) : UInt64 := (x.toBits >>> 32) &&& 0x7fffffff

def hasSign (x : Float) : Bool := x.toBits >>> 63 == 1

namespace Exponential

def ln2Leading : Float := 6.93147180369123816490e-01

def ln2Rest : Float := 1.90821492927058770002e-10

def perLn2 : Float := 1.44269504088896338700

def coefficients : List Float :=
  [1.66666666666666019037e-01, -2.77777777770155933842e-03, 6.61375632143793436117e-05,
    -1.65339022054652515390e-06, 4.13813679705723846039e-08]

/-- The multiple of the logarithm of two that is taken out: none up to half of it, one up to one
and a half of it, and beyond that the nearest. -/
def multiple (x : Float) : Int :=
  let word := magnitudeWord x
  if word <= 0x3fd62e42 then 0
  else if word < 0x3ff0a2b2 then if hasSign x then -1 else 1
  else (perLn2 * x + (if hasSign x then -0.5 else 0.5)).toInt32.toInt

/-- The function within the range in which the result is neither too large nor too small. -/
def within (x : Float) : Float :=
  let k := multiple x
  let leading := x - Float.ofInt k * ln2Leading
  let rest := Float.ofInt k * ln2Rest
  let r := leading - rest
  let c := r - r * r * polynomial (r * r) coefficients
  (1.0 + (r * c / (2.0 - c) - rest + leading)).scaleB k

end Exponential

def exponential (x : Float) : Float :=
  if x.isNaN then x
  else if x > 709.782712893383973096 then 1.0 / 0.0
  else if x < -745.13321910194110842 then 0.0
  else if magnitudeWord x <= 0x3e300000 then 1.0 + x
  else Exponential.within x

namespace Normal

def erx : Float := 8.45062911510467529297e-01

def pp : List Float :=
  [1.28379167095512558561e-01, -3.25042107247001499370e-01, -2.84817495755985104766e-02,
    -5.77027029648944159157e-03, -2.37630166566501626084e-05]

def qq : List Float :=
  [1.0, 3.97917223959155352819e-01, 6.50222499887672944485e-02, 5.08130628187576562776e-03,
    1.32494738004321644526e-04, -3.96022827877536812320e-06]

def pa : List Float :=
  [-2.36211856075265944077e-03, 4.14856118683748331666e-01, -3.72207876035701323847e-01,
    3.18346619901161753674e-01, -1.10894694282396677476e-01, 3.54783043256182359371e-02,
    -2.16637559486879084300e-03]

def qa : List Float :=
  [1.0, 1.06420880400844228286e-01, 5.40397917702171048937e-01, 7.18286544141962662868e-02,
    1.26171219808761642112e-01, 1.36370839120290507362e-02, 1.19844998467991074170e-02]

def ra : List Float :=
  [-9.86494403484714822705e-03, -6.93858572707181764372e-01, -1.05586262253232909814e+01,
    -6.23753324503260060396e+01, -1.62396669462573470355e+02, -1.84605092906711035994e+02,
    -8.12874355063065934246e+01, -9.81432934416914548592e+00]

def sa : List Float :=
  [1.0, 1.96512716674392571292e+01, 1.37657754143519042600e+02, 4.34565877475229228821e+02,
    6.45387271733267880336e+02, 4.29008140027567833386e+02, 1.08635005541779435134e+02,
    6.57024977031928170135e+00, -6.04244152148580987438e-02]

def rb : List Float :=
  [-9.86494292470009928597e-03, -7.99283237680523006574e-01, -1.77579549177547519889e+01,
    -1.60636384855821916062e+02, -6.37566443368389627722e+02, -1.02509513161107724954e+03,
    -4.83519191608651397019e+02]

def sb : List Float :=
  [1.0, 3.03380607434824582924e+01, 3.25792512996573918826e+02, 1.53672958608443695994e+03,
    3.19985821950859553908e+03, 2.55305040643316442583e+03, 4.74528541206955367215e+02,
    -2.24409524465858183362e+01]

def leadingPart (x : Float) : Float := Float.ofBits (x.toBits &&& 0xffffffff00000000)

def erfcTail (x : Float) : Float :=
  let word := magnitudeWord x
  if word < 0x3ff40000 then
    let s := x - 1.0
    1.0 - erx - polynomial s pa / polynomial s qa
  else
    let s := 1.0 / (x * x)
    let (r, q) :=
      if word < 0x4006db6d then (polynomial s ra, polynomial s sa)
      else (polynomial s rb, polynomial s sb)
    let z := leadingPart x
    exponential (-z * z - 0.5625) * exponential ((z - x) * (z + x) + r / q) / x

def erfc (x : Float) : Float :=
  let word := magnitudeWord x
  let negative := hasSign x
  if word >= 0x7ff00000 then (if negative then 2.0 else 0.0) + 1.0 / x
  else if word < 0x3feb0000 then
    if word < 0x3c700000 then 1.0 - x
    else
      let z := x * x
      let y := polynomial z pp / polynomial z qq
      if negative || word < 0x3fd00000 then 1.0 - (x + x * y)
      else 0.5 - (x - 0.5 + x * y)
  else if word < 0x403c0000 then
    if negative then 2.0 - erfcTail x.abs else erfcTail x.abs
  else if negative then 2.0 else 0.0

def sqrtTwo : Float := 1.41421356237309504880

/-- The probability that a normal value exceeds the threshold. Without spread, all values are
the mean. -/
def exceeds (erfc : Float → Float) (mean deviation threshold : Float) : Float :=
  if deviation <= 0.0 then (if mean > threshold then 1.0 else 0.0)
  else 0.5 * erfc ((threshold - mean) / (deviation * sqrtTwo))

end Normal

end Equational
