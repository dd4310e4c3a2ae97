import Dragon.Double

/-!
# The double nearest to a decimal
-/
namespace Dragon.Decimal

/-- Rounds to the nearest double. Decimals beyond the range of the doubles are decided by the
place of their leading digit, without computing the power. -/
def toFloat (d : Decimal) : Float :=
  let leading := d.exponent + digitCount d.digits
  if d.digits == 0 || leading < -330 then 0.0
  else if 310 < leading then Double.infinity
  else Float.ofScientific d.digits (d.exponent < 0) d.exponent.natAbs

end Dragon.Decimal
