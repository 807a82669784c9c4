import Arishem.Lib.BitWords
import Arishem.Lib.Sorted

/-!
# The sets of dependents

`fastset` keeps a set of small numbers. Up to twelve of them lie in an array in increasing order;
with the thirteenth the same memory becomes a field of bits, and `card` stays at 13 and only says
so. What is read as the one form while it holds the other is no value, nor is a word outside the
field. The memory of a new set holds anything.
-/

namespace Arishem

/-- `MAX_SIZE`. -/
def maxSize : ℕ := 2048

/-- `SMALL_SIZE`. -/
def smallSize : ℕ := 13

/-- `SMALLER_SIZE`. -/
def smallerSize : ℕ := 6

/-- The two forms that share the memory. -/
inductive FastSetData
  | values (v : ℕ → ℕ)
  | bits (b : ℕ → BitVec 64)

/-- A `fastset`. -/
structure FastSet where
  data : FastSetData
  card : ℕ

namespace FastSet

/-- The constructor, over any memory. -/
def init (memory : ℕ → ℕ) : FastSet where
  data := .values memory
  card := 0

/-- `data.values`. -/
def values (s : FastSet) : Option (ℕ → ℕ) :=
  match s.data with
  | .values v => some v
  | .bits _ => none

/-- `data.bits`. -/
def bits (s : FastSet) : Option (ℕ → BitVec 64) :=
  match s.data with
  | .values _ => none
  | .bits b => some b

/-- `setbit`. -/
def setbit (x : ℕ) (b : ℕ → BitVec 64) : Option (ℕ → BitVec 64) :=
  let word := x >>> 6
  let bit := x &&& 63
  if word < maxSize / 64 then some (Function.update b word (b word ||| 1#64 <<< bit)) else none

/-- `getbit`. -/
def getbit (x : ℕ) (b : ℕ → BitVec 64) : Option Bool :=
  let word := x >>> 6
  let bit := x &&& 63
  if word < maxSize / 64 then some (((b word >>> bit) &&& 1#64) != 0#64) else none

/-- `insert_small`: the new number of values and the values. -/
def insertSmall (x card : ℕ) (v : ℕ → ℕ) : ℕ × (ℕ → ℕ) :=
  let i := Sorted.place x card v
  if i < card ∧ v i = x then (card, v)
  else (card + 1, Function.update (Sorted.moveUp i card v) i x)

/-- `search_small_linear`. -/
def searchSmallLinear (x card : ℕ) (v : ℕ → ℕ) : Bool :=
  let i := Sorted.place x card v
  decide (i < card ∧ v i = x)

/-- `search_small`. -/
def searchSmall (x card : ℕ) (v : ℕ → ℕ) : Bool :=
  if card = 0 then false
  else if card < smallerSize then searchSmallLinear x card v
  else Sorted.bisect x v 0 (card - 1)

/-- `smalltobit`. -/
def smalltobit (card : ℕ) (v : ℕ → ℕ) : Option (ℕ → BitVec 64) :=
  (List.range card).foldlM (fun b i => setbit (v i) b) fun _ => 0

/-- `insert`. -/
def insert (x : ℕ) (s : FastSet) : Option FastSet :=
  if s.card = 0 then
    s.values.map fun v => { data := .values (Function.update v 0 x), card := 1 }
  else if s.card < smallSize then do
    let v ← s.values
    let (card, v) := insertSmall x s.card v
    if card = smallSize then (smalltobit card v).map fun b => { data := .bits b, card := card }
    else some { data := .values v, card := card }
  else do
    let b ← s.bits
    (setbit x b).map fun b => { data := .bits b, card := s.card }

/-- `search`. -/
def search (x : ℕ) (s : FastSet) : Option Bool :=
  if s.card = 0 then some false
  else if s.card = 1 then s.values.map fun v => v 0 == x
  else if s.card < smallSize then s.values.map (searchSmall x s.card)
  else s.bits.bind (getbit x)

/-- The loop of `join` that inserts the values of the other set. That set is read anew in each
round, since it can be the set itself. -/
def insertAll (other : FastSet → FastSet) : ℕ → ℕ → FastSet → Option FastSet
  | 0, _, _ => none
  | fuel + 1, i, s =>
    if i < (other s).card then do
      let v ← (other s).values
      let s ← s.insert (v i)
      insertAll other fuel (i + 1) s
    else some s

/-- `join`. -/
def join (other : FastSet → FastSet) (n : ℕ) (s : FastSet) : Option FastSet :=
  if (other s).card = 0 then some s
  else if (other s).card < smallSize then insertAll other (smallSize + 1) 0 s
  else do
    let s ←
      if s.card < smallSize then do
        let v ← s.values
        let b ← smalltobit s.card v
        if smallSize ≤ (other s).card then some { data := .bits b, card := smallSize } else none
      else some s
    let lim := ((n ||| 63) + 1) / 64
    let b ← s.bits
    let o ← (other s).bits
    if lim ≤ maxSize / 64 then some { s with data := .bits (BitWords.orWords lim b o) } else none

/-- A round of `expand` on the number `l`: write it where its bit is set. -/
def expandBit (b : ℕ → BitVec 64) (acc : ℕ × (ℕ → ℕ)) (l : ℕ) : Option (ℕ × (ℕ → ℕ)) := do
  let found ← getbit l b
  if found then some (acc.1 + 1, Function.update acc.2 acc.1 l) else some acc

/-- The loop of `expand` over the numbers of a word. -/
def expandWord (b : ℕ → BitVec 64) (n : ℕ) (acc : ℕ × (ℕ → ℕ)) (word : ℕ) :
    Option (ℕ × (ℕ → ℕ)) :=
  if word < maxSize / 64 then
    if b word = 0#64 then some acc
    else
      (((List.range 64).takeWhile fun j => decide (64 * word + j < n)).map
        fun j => 64 * word + j).foldlM (expandBit b) acc
  else none

/-- `expand`, over what the array holds: the number of elements written and the array. -/
def expand (n : ℕ) (v : ℕ → ℕ) (s : FastSet) : Option (ℕ × (ℕ → ℕ)) :=
  if s.card = 0 then some (0, v)
  else if s.card < smallSize then
    s.values.map fun values => (s.card, fun i => if i < s.card then values i else v i)
  else
    s.bits.bind fun b => (List.range ((n + 63) / 64)).foldlM (expandWord b n) (0, v)

/-- The numbers `ITERATE_SET` visits. -/
def iterateSet (n : ℕ) (v : ℕ → ℕ) (s : FastSet) : Option (List ℕ) :=
  (s.expand n v).map fun r => (List.range r.1).map r.2

end FastSet

/-! ## Several sets -/

/-- What is done to a family of sets. -/
inductive FastSetOp (ι : Type*)
  | insert (i : ι) (x : ℕ)
  | join (i j : ι) (n : ℕ)

namespace FastSetOp

section
variable {ι : Type*} [DecidableEq ι]

/-- The sets after an operation. -/
def apply (sets : ι → FastSet) : FastSetOp ι → Option (ι → FastSet)
  | insert i x => ((sets i).insert x).map (Function.update sets i)
  | join i j n =>
    ((sets i).join (fun s => if j = i then s else sets j) n).map (Function.update sets i)

/-- The sets after some operations. -/
def run (sets : ι → FastSet) (ops : List (FastSetOp ι)) : Option (ι → FastSet) :=
  ops.foldlM apply sets

/-- What an operation stands for. -/
def meaning (elems : ι → Finset ℕ) : FastSetOp ι → ι → Finset ℕ
  | insert i x => Function.update elems i (Insert.insert x (elems i))
  | join i j _ => Function.update elems i (elems i ∪ elems j)

/-- What some operations stand for. -/
def meanings (elems : ι → Finset ℕ) (ops : List (FastSetOp ι)) : ι → Finset ℕ :=
  ops.foldl meaning elems

/-- The value is below the largest size, and the size argument above the elements joined. -/
def Valid (elems : ι → Finset ℕ) : FastSetOp ι → Prop
  | insert _ x => x < maxSize
  | join _ j n => n < maxSize ∧ ∀ x ∈ elems j, x < n

/-- All operations are valid where they are made. -/
def ValidAll (elems : ι → Finset ℕ) : List (FastSetOp ι) → Prop
  | [] => True
  | op :: ops => op.Valid elems ∧ ValidAll (op.meaning elems) ops

end

end FastSetOp

end Arishem
