import Mathlib.Algebra.Ring.Int.Defs
import Mathlib.Algebra.Ring.Nat

namespace Bits

-- int, built with -m32
abbrev Word := BitVec 32

-- x >> n and x << n for a count below 32
def sar (x n : Word) : Word := x.sshiftRight n.toNat
def shl (x n : Word) : Word := x <<< n.toNat

-- !x
def lnot (x : Word) : Word := if x = 0 then 1 else 0

def bang (x : Word) : Word :=
  let a := sar (x ||| (~~~x + 1)) 31
  a + 1

def bitCount (x : Word) : Word :=
  let m1 : Word := 0x11 ||| shl 0x11 8
  let mask := m1 ||| shl m1 16
  let s := x &&& mask
  let s := s + (sar x 1 &&& mask)
  let s := s + (sar x 2 &&& mask)
  let s := s + (sar x 3 &&& mask)
  let s := s + sar s 16
  let mask : Word := 0xF ||| shl 0xF 8
  let s := (s &&& mask) + (sar s 4 &&& mask)
  (s + sar s 8) &&& 0x3F

def copyLSB (x : Word) : Word := sar (shl x 31) 31

def divpwr2 (x n : Word) : Word :=
  let x1 := sar x n
  let x2 := ~~~(sar (~~~x + 1) n) + 1
  let a := sar (~~~x + 1) 31
  (a &&& x1) + (~~~a &&& x2)

def evenBits : Word :=
  let a : Word := 0x55
  let a := a ||| shl a 8
  let a := a ||| shl a 16
  a

def fitsBits (x n : Word) : Word :=
  let a := sar x (n + ~~~1 + 1)
  let i := sar x 31
  lnot (a ^^^ i)

def getByte (x n : Word) : Word :=
  let n := shl n 3
  let x := sar x n
  x &&& 0xFF

def isGreater (x y : Word) : Word :=
  let a := ~~~(shl 1 31)
  let b := x &&& a
  let c := y &&& a
  let d := sar x 31
  let e := d ^^^ sar y 31
  let f := b + ~~~c + 1
  let g := sar f 31
  let h := sar (shl (lnot f) 31) 31
  lnot (lnot (~~~(e ||| g ||| h) ||| (e &&& ~~~d)))

def isNonNegative (x : Word) : Word := lnot (sar x 31)

def isNotEqual (x y : Word) : Word := lnot (lnot (x ^^^ y))

def isPower2 (x : Word) : Word :=
  let m1 : Word := 0x11 ||| shl 0x11 8
  let mask := m1 ||| shl m1 16
  let s := x &&& mask
  let s := s + (sar x 1 &&& mask)
  let s := s + (sar x 2 &&& mask)
  let s := s + (sar x 3 &&& mask)
  let s := s + sar s 16
  let mask : Word := 0xF ||| shl 0xF 8
  let s := (s &&& mask) + (sar s 4 &&& mask)
  let s := (s + sar s 8) &&& 0x3F
  lnot (lnot (shl x 1)) &&& lnot (s + ~~~1 + 1)

def leastBitPos (x : Word) : Word := (~~~x + 1) &&& x

def logicalShift (x n : Word) : Word :=
  let a := shl (~~~0) (33 + ~~~n)
  let x := sar x n
  ~~~(~~~x ||| a)

def satAdd (x y : Word) : Word :=
  let a := ~~~(shl 1 31)
  let x1 := sar (x &&& ~~~a) 31
  let y1 := sar (y &&& ~~~a) 31
  let s1 := sar ((x + y) &&& ~~~a) 31
  let m1 := x1 &&& y1 &&& ~~~s1
  let m2 := ~~~x1 &&& ~~~y1 &&& s1
  (m1 &&& ~~~a) + (m2 &&& a) + (~~~(m1 ||| m2) &&& (x + y))

def tc2sm (x : Word) : Word :=
  let sign := shl 1 31 &&& x
  let i := sar sign 31
  let mag := (i &&& (~~~x + 1)) + (~~~i &&& x)
  sign ||| mag

-- a comparison as an int
def ofProp (p : Prop) [Decidable p] : Word := if p then 1 else 0

def testBang (x : Word) : Word := lnot x

-- the loop after its first i turns
def bitCountLoop (x : Word) : Nat → Word
  | 0 => 0
  | i + 1 => bitCountLoop x i + (x.sshiftRight i &&& 0x1)

def testBitCount (x : Word) : Word := bitCountLoop x 32

def testCopyLSB (x : Word) : Word := if x &&& 0x1 ≠ 0 then -1 else 0

def testDivpwr2 (x n : Word) : Word :=
  let p2n := shl 1 n
  x.sdiv p2n

def evenBitsLoop : Nat → Word
  | 0 => 0
  | i + 1 => evenBitsLoop i ||| 1 <<< (2 * i)

def testEvenBits : Word := evenBitsLoop 16

def testFitsBits (x n : Word) : Word :=
  let tminN := -(shl 1 (n - 1))
  let tmaxN := shl 1 (n - 1) - 1
  ofProp (x.toInt ≥ tminN.toInt ∧ x.toInt ≤ tmaxN.toInt)

-- byte i of a word in memory
def bytes (little : Bool) (word : Word) (i : Nat) : BitVec 8 :=
  word.extractLsb' (8 * if little then i else 3 - i) 8

def testGetByte (little : Bool) (x n : Word) : Word :=
  let littleEndian := bytes little 1 0
  if littleEndian ≠ 0 then (bytes little x n.toNat).setWidth 32
  else (bytes little x (3 - n).toNat).setWidth 32

def testIsGreater (x y : Word) : Word := ofProp (x.toInt > y.toInt)

def testIsNonNegative (x : Word) : Word := ofProp (x.toInt ≥ 0)

def testIsNotEqual (x y : Word) : Word := ofProp (x ≠ y)

-- the loop from turn i on, k turns left
def isPower2Loop (x : Word) : Nat → Nat → Word
  | 0, _ => 0
  | k + 1, i => if x = 1 <<< i then 1 else isPower2Loop x k (i + 1)

def testIsPower2 (x : Word) : Word := isPower2Loop x 31 0

-- none: the loop is not done after k turns
def leastBitPosLoop (x : Word) : Nat → Word → Option Word
  | 0, _ => none
  | k + 1, mask => if mask &&& x = 0 then leastBitPosLoop x k (mask <<< 1) else some mask

def testLeastBitPos (x : Word) : Option Word :=
  if x = 0 then some 0 else leastBitPosLoop x 32 1

def testLogicalShift (x n : Word) : Word :=
  let shifted := x >>> n.toNat
  shifted

def longMax : Word := 0x7fffffff
def longMin : Word := -0x7fffffff - 1

def testSatAdd (x y : Word) : Word :=
  if x.toInt > 0 ∧ y.toInt > 0 ∧ (x + y).toInt < 0 then longMax
  else if x.toInt < 0 ∧ y.toInt < 0 ∧ (x + y).toInt ≥ 0 then longMin
  else x + y

def testTc2sm (x : Word) : Word :=
  let sign := ofProp (x.toInt < 0)
  let mag := if x.toInt < 0 then -x else x
  sign <<< 31 ||| mag

-- the fields of an entry of test_set that its check reads; a range for each of two arguments
structure TestRec where
  name : String
  solution : Word → Word → Word
  test : Word → Word → Option Word
  args : Nat
  argRanges : (Word × Word) × (Word × Word)

def tMin : Word := longMin
def tMax : Word := longMax

-- little: the byte order of the machine
def testSet (little : Bool) : List TestRec :=
  [⟨"bang",fun x _ => bang x,fun x _ => some (testBang x),1,(tMin,tMax),(tMin,tMax)⟩,
    ⟨"bitCount",fun x _ => bitCount x,fun x _ => some (testBitCount x),1,(tMin,tMax),(tMin,tMax)⟩,
    ⟨"copyLSB",fun x _ => copyLSB x,fun x _ => some (testCopyLSB x),1,(tMin,tMax),(tMin,tMax)⟩,
    ⟨"divpwr2",divpwr2,fun x n => some (testDivpwr2 x n),2,(tMin,tMax),(0,30)⟩,
    ⟨"evenBits",fun _ _ => evenBits,fun _ _ => some testEvenBits,0,(tMin,tMax),(tMin,tMax)⟩,
    ⟨"fitsBits",fitsBits,fun x n => some (testFitsBits x n),2,(tMin,tMax),(1,32)⟩,
    ⟨"getByte",getByte,fun x n => some (testGetByte little x n),2,(tMin,tMax),(0,3)⟩,
    ⟨"isGreater",isGreater,fun x y => some (testIsGreater x y),2,(tMin,tMax),(tMin,tMax)⟩,
    ⟨"isNonNegative",fun x _ => isNonNegative x,fun x _ => some (testIsNonNegative x),1,
      (tMin,tMax),(tMin,tMax)⟩,
    ⟨"isNotEqual",isNotEqual,fun x y => some (testIsNotEqual x y),2,(tMin,tMax),(tMin,tMax)⟩,
    ⟨"isPower2",fun x _ => isPower2 x,fun x _ => some (testIsPower2 x),1,(tMin,tMax),(tMin,tMax)⟩,
    ⟨"leastBitPos",fun x _ => leastBitPos x,fun x _ => testLeastBitPos x,1,(tMin,tMax),(tMin,tMax)⟩,
    ⟨"logicalShift",logicalShift,fun x n => some (testLogicalShift x n),2,(tMin,tMax),(1,31)⟩,
    ⟨"satAdd",satAdd,fun x y => some (testSatAdd x y),2,(tMin,tMax),(tMin,tMax)⟩,
    ⟨"tc2sm",fun x _ => tc2sm x,fun x _ => some (testTc2sm x),1,(tMin + 1,tMax),(tMin + 1,tMax)⟩]

def InRange (r : Word × Word) (v : Word) : Prop := r.1.toInt ≤ v.toInt ∧ v.toInt ≤ r.2.toInt

instance (r : Word × Word) (v : Word) : Decidable (InRange r v) :=
  inferInstanceAs (Decidable (_ ∧ _))

-- the arguments an entry declares; what is passed beyond them is not read
def TestRec.Declares (t : TestRec) (x y : Word) : Prop :=
  (1 ≤ t.args → InRange t.argRanges.1 x) ∧ (2 ≤ t.args → InRange t.argRanges.2 y)

instance (t : TestRec) (x y : Word) : Decidable (t.Declares x y) :=
  inferInstanceAs (Decidable (_ ∧ _))

end Bits
