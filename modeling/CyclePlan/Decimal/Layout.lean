import CyclePlan.Decimal.Shortest

/-!
# Layouts of decimals

How a double is written once its digits are known.

Two texts occur in the library's output. Messages, linear programs and plain
answers write every digit positionally, however large or small the number is,
and leave whole numbers without a point. Documents mark whole numbers with a
trailing `.0` and change to an exponent outside a fixed range. Both are values
of one record, so that what distinguishes them can be read off side by side.

## Main definitions

* `Layout`: The decisions that fix one way to write a double.
* `Layout.plain`: The layout of messages and linear programs.
* `Layout.document`: The layout of documents.
* `Layout.write`: The text of a double.
-/

namespace CyclePlan

namespace Decimal

/-- The decisions that fix one way to write a double. -/
structure Layout where
  /-- The exponents of the first digit that are written positionally, from the
      least to the greatest; all of them if there is no range. -/
  positional : Option (Int × Int)
  /-- Whether a whole number is marked by a point and a zero. -/
  marksWhole : Bool
  /-- Which of two equally near shortest candidates is taken. -/
  tie : Tie
  undefinedText : String
  infinityTexts : String × String

/-- Messages and linear programs: every digit positionally, no mark on whole
    numbers. -/
def Layout.plain : Layout where
  positional := none
  marksWhole := false
  tie := .up
  undefinedText := "NaN"
  infinityTexts := ("inf", "-inf")

/-- Documents: positional from the fifth decimal place up to sixteen digits, an
    exponent with its sign outside that range, and no number for a value that
    is not finite. -/
def Layout.document : Layout where
  positional := some (-5, 15)
  marksWhole := true
  tie := .even
  undefinedText := "null"
  infinityTexts := ("null", "null")

/-- `n` zeros. -/
def zeros (n : Nat) : String := String.ofList (List.replicate n '0')

/-- Digits in positional notation. -/
def positionalText (marksWhole : Bool) (d : Digits) : String :=
  let ds := (toString d.digits).toList
  if 0 ≤ d.exponent then
    String.ofList ds ++ zeros d.exponent.toNat ++ (if marksWhole then ".0" else "")
  else
    let places := (-d.exponent).toNat
    if places < ds.length then
      String.ofList (ds.take (ds.length - places)) ++ "."
        ++ String.ofList (ds.drop (ds.length - places))
    else "0." ++ zeros (places - ds.length) ++ String.ofList ds

/-- Digits with one of them before the point and an exponent. -/
def scientificText (d : Digits) : String :=
  let ds := (toString d.digits).toList
  let e := d.exponent + (ds.length : Int) - 1
  let body :=
    match ds with
    | first :: rest =>
      String.singleton first ++ (if rest.isEmpty then "" else "." ++ String.ofList rest)
    | [] => ""
  body ++ (if e < 0 then "e-" else "e+") ++ toString e.natAbs

/-- The text of a positive finite double. -/
def Layout.writeDigits (layout : Layout) (d : Digits) : String :=
  let e := d.exponent + ((toString d.digits).length : Int) - 1
  match layout.positional with
  | none => positionalText layout.marksWhole d
  | some (least, greatest) =>
    if least ≤ e ∧ e ≤ greatest then positionalText layout.marksWhole d
    else scientificText d

/-- The text of a double. -/
def Layout.write (layout : Layout) (x : Float) : String :=
  let bits := x.toBits.toNat
  let fraction := bits % hiddenBit
  let exponent := bits / hiddenBit % 2048
  let negative := bits / hiddenBit / 2048 = 1
  if exponent = 2047 then
    if fraction ≠ 0 then layout.undefinedText
    else if negative then layout.infinityTexts.2 else layout.infinityTexts.1
  else
    let body :=
      if exponent = 0 ∧ fraction = 0 then
        if layout.marksWhole then "0.0" else "0"
      else layout.writeDigits ((Binary.ofFields exponent fraction).shortest layout.tie)
    if negative then "-" ++ body else body

end Decimal

end CyclePlan
