import FlowPaths.Number.Binary64
import FlowPaths.Text.Blank
import FlowPaths.Text.Digit

/-!
Decimal text of binary numbers.  Reading rounds to the nearest number; writing takes the fewest
digits that read back as the same number.
-/

namespace FlowPaths

structure Decimal where
  digits : Nat
  exponent : Int
  deriving DecidableEq

namespace Decimal

def digitCount (n : Nat) : Nat := (Nat.toDigits 10 n).length

/-- Where the decimal point stands, counted from the first digit: the least `p` with
`d < 10 ^ p`. -/
def point (d : Decimal) : Int := digitCount d.digits + d.exponent

def isInfinityWord (cs : List Char) : Bool :=
  let word := cs.map Char.toLower
  word == ['i', 'n', 'f'] || word == ['i', 'n', 'f', 'i', 'n', 'i', 't', 'y']

/-- A run of digits, in which a single low line may stand between two digits, and what follows. -/
def digitRun : List Char → List Char × List Char
  | [] => ([], [])
  | c :: '_' :: d :: cs =>
    if c.isDigit && d.isDigit then
      let (run, rest) := digitRun (d :: cs)
      (c :: run, rest)
    else if c.isDigit then ([c], '_' :: d :: cs)
    else ([], c :: '_' :: d :: cs)
  | c :: cs =>
    if c.isDigit then
      let (run, rest) := digitRun cs
      (c :: run, rest)
    else ([], c :: cs)

def readDigits (cs : List Char) : Nat :=
  cs.foldl (fun n c => 10 * n + (c.toNat - '0'.toNat)) 0

def readSign : List Char → Bool × List Char
  | '-' :: cs => (true, cs)
  | '+' :: cs => (false, cs)
  | cs => (false, cs)

def readExponent? : List Char → Option Int
  | [] => some 0
  | mark :: cs =>
    if mark = 'e' ∨ mark = 'E' then
      let (negative, cs) := readSign cs
      match digitRun cs with
      | ([], _) => none
      | (run, []) => some (Binary64.withSign negative (readDigits run))
      | (_, _ :: _) => none
    else none

def read? (cs : List Char) : Option Decimal :=
  let (whole, rest) := digitRun cs
  let (fraction, rest) :=
    match rest with
    | '.' :: rest => digitRun rest
    | rest => ([], rest)
  if whole.isEmpty && fraction.isEmpty then none
  else (readExponent? rest).map fun e => ⟨readDigits (whole ++ fraction), e - fraction.length⟩

end Decimal

namespace Binary64

/-- The number nearest to a decimal.  A point beyond these bounds settles the answer, so that no
large power is ever formed. -/
def ofDecimal (negative : Bool) (d : Decimal) : Binary64 :=
  if d.digits = 0 ∨ d.point < -330 then zero negative
  else if 310 < d.point then .infinite negative
  else ofRatio negative ((Ratio.ofNat d.digits).unscale 10 (by decide) (-d.exponent))

/-- Reads a decimal or the word for infinity, signed or not, between blanks.  The digits may be
those of any script. -/
def ofText? (s : String) : Option Binary64 :=
  let (negative, cs) := Decimal.readSign ((Text.trimBlanks s.toList).map Text.plainDigit)
  if Decimal.isInfinityWord cs then some (.infinite negative)
  else (Decimal.read? cs).map (ofDecimal negative)

def decimalPoint (r : Ratio) : Int :=
  if r.den ≤ r.num then Decimal.digitCount (r.num / r.den)
  else 1 - Decimal.digitCount ((r.den - 1) / r.num)

/-- The two decimals with `count` digits around the fraction, the nearer one first and of two
equally near the even one. -/
def neighbours (r : Ratio) (count : Nat) : List Decimal :=
  let e := decimalPoint r - count
  let s := r.unscale 10 (by decide) e
  let low : Decimal := ⟨s.num / s.den, e⟩
  let high : Decimal := ⟨s.num / s.den + 1, e⟩
  let rest := 2 * (s.num % s.den)
  if rest < s.den ∨ (rest = s.den ∧ low.digits % 2 = 0) then [low, high] else [high, low]

/-- The shortest decimal that reads back as `m · 2 ^ e`, of several the nearest. -/
def shortest (m : Nat) (e : Int) (h : Canonical m e) : Decimal :=
  if m = 0 then ⟨0, 0⟩
  else
    let r := (Ratio.ofNat m).halve (-e)
    let readsBack (d : Decimal) : Bool := ofDecimal false d = .finite false m e h
    ((List.range 17).findSome? fun n => (neighbours r (n + 1)).find? readsBack).getD ⟨r.num, 0⟩

structure Layout where
  firstPoint : Int
  lastPoint : Int
  exponentWidth : Nat

def layout : Layout := ⟨-3, 16, 2⟩

def zeros (n : Int) : List Char := List.replicate n.toNat '0'

def positional (ds : List Char) (p : Int) : List Char :=
  if p ≤ 0 then '0' :: '.' :: zeros (-p) ++ ds
  else if ds.length ≤ p then ds ++ zeros (p - ds.length) ++ ['.', '0']
  else ds.take p.toNat ++ '.' :: ds.drop p.toNat

def exponential (width : Nat) (ds : List Char) (p : Int) : List Char :=
  let power := Nat.toDigits 10 (p - 1).natAbs
  let sign := if p - 1 < 0 then '-' else '+'
  let fraction := if ds.length ≤ 1 then [] else '.' :: ds.drop 1
  ds.take 1 ++ fraction ++ 'e' :: sign :: List.replicate (width - power.length) '0' ++ power

def trimZeros (ds : List Char) : List Char :=
  match (ds.reverse.dropWhile (· == '0')).reverse with
  | [] => ['0']
  | ds => ds

def toText : Binary64 → String
  | .infinite negative => if negative then "-inf" else "inf"
  | .finite negative m e h =>
    let d := shortest m e h
    let ds := trimZeros (Nat.toDigits 10 d.digits)
    let p := d.point
    let body :=
      if layout.firstPoint ≤ p ∧ p ≤ layout.lastPoint then positional ds p
      else exponential layout.exponentWidth ds p
    String.ofList (if negative then '-' :: body else body)

end Binary64

end FlowPaths
