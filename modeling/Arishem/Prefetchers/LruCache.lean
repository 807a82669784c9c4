import Arishem.Lib.Argmax
import Arishem.Lib.LruTable
import Mathlib.Algebra.GroupWithZero.Nat
import Mathlib.Data.Nat.Size

/-!
# The set-associative tables of Bingo and MLOP

A key is in the set of its remainder. A set has an array of entries and a map from the tags to the
ways of its valid entries; the ways have the times of their last use, and the way of the smallest time
is the victim. The keys are numbers, as they are only shifted and have bits set.
-/

namespace Arishem

namespace SetAssociativeCache

/-! ## Indices -/

/-- The loop of `hash_index`. -/
def hashLoop (indexLen : ℕ) : ℕ → ℕ → ℕ → ℕ
  | 0, _, key => key
  | fuel + 1, tag, key =>
    if 0 < tag then hashLoop indexLen fuel (tag >>> indexLen) (key ^^^ (tag % 2 ^ indexLen)) else key

/-- `hash_index`; a key has 64 bits, so that the loop ends. -/
def hashIndex (key indexLen : ℕ) : ℕ :=
  if indexLen = 0 then key else hashLoop indexLen 64 (key >>> indexLen) key

/-! ## The cache -/

/-- The occupancy of the queues of the cache. -/
structure Queues where
  pqOccupancy : ℕ
  pqSize : ℕ
  mshrOccupancy : ℕ
  mshrSize : ℕ

/-- A prefetch is issued while the queues have room. -/
def Queues.room (q : Queues) : Bool :=
  q.pqOccupancy < q.pqSize && q.pqOccupancy + q.mshrOccupancy < q.mshrSize - 1

/-- Requests are issued while the queues have room, after `n` that were issued before. -/
def whileRoom {α : Type*} (queues : ℕ → Queues) : ℕ → List α → List α
  | _, [] => []
  | n, a :: l => if (queues n).room then a :: whileRoom queues (n + 1) l else []

theorem whileRoom_full {α : Type*} {queues : ℕ → Queues} {n : ℕ} (h : ¬(queues n).room = true)
    (l : List α) : whileRoom queues n l = [] := by
  cases l with
  | nil => rfl
  | cons a l => rw [whileRoom, if_neg h]

theorem whileRoom_isPrefix {α : Type*} {queues : ℕ → Queues} {n : ℕ} {l : List α} :
    whileRoom queues n l <+: l := by
  induction l generalizing n with
  | nil => exact List.nil_prefix
  | cons a l ih =>
    rw [whileRoom]
    split
    · exact List.prefix_cons_inj a |>.2 ih
    · exact List.nil_prefix

/-! ## Tables -/

/-- The sets and ways of a table. -/
structure Geometry where
  numWays : ℕ
  numSets : ℕ
  numWays_pos : 0 < numWays
  numSets_pos : 0 < numSets

/-- The bits of an index. -/
def Geometry.indexLen (k : Geometry) : ℕ := (k.numSets - 1).size

/-- `SetAssociativeCache::Entry`. -/
structure Entry (T : Type*) where
  key : ℕ
  index : ℕ
  tag : ℕ
  valid : Bool
  data : T

/-- `LRUSetAssociativeCache`. -/
structure LruCache (T : Type*) where
  entries : ℕ → ℕ → Entry T
  cams : ℕ → ℕ → Option ℕ
  lru : ℕ → ℕ → ℕ
  t : ℕ

namespace LruCache

section
variable {T : Type*} (k : Geometry)

/-- The constructor, with the data that entries start with. -/
def init (data : T) : LruCache T where
  entries := fun _ _ => ⟨0, 0, 0, false, data⟩
  cams := fun _ _ => none
  lru := fun _ _ => 0
  t := 1

/-- `find`, to the way. -/
def find (c : LruCache T) (key : ℕ) : Option ℕ := c.cams (key % k.numSets) (key / k.numSets)

/-- `find`, to the data. -/
def data? (c : LruCache T) (key : ℕ) : Option T :=
  (c.find k key).map fun way => (c.entries (key % k.numSets) way).data

def setEntry (c : LruCache T) (index way : ℕ) (e : Entry T) : LruCache T :=
  { c with entries := Function.update c.entries index (Function.update (c.entries index) way e) }

/-- The map from the tags of a set. -/
def setCam (c : LruCache T) (index : ℕ) (cam : ℕ → Option ℕ) : LruCache T :=
  { c with cams := Function.update c.cams index cam }

/-- The data of an entry that was found are changed in place. -/
def modify (c : LruCache T) (key : ℕ) (f : T → T) : LruCache T :=
  match c.find k key with
  | some way =>
    let e := c.entries (key % k.numSets) way
    c.setEntry (key % k.numSets) way { e with data := f e.data }
  | none => c

/-- `erase`: the table, and the entry as it was. -/
def erase (c : LruCache T) (key : ℕ) : LruCache T × Option (Entry T) :=
  let index := key % k.numSets
  let c' := c.setCam index (Function.update (c.cams index) (key / k.numSets) none)
  match c.find k key with
  | some way =>
    let e := c.entries index way
    (c'.setEntry index way { e with valid := false }, some e)
  | none => (c', none)

/-- `select_victim`: the first way of the smallest time. -/
def selectVictim (c : LruCache T) (index : ℕ) : ℕ :=
  (Argmax.scanMin (c.lru index) (c.lru index 0, 0) (List.range k.numWays)).2

/-- The way for a new key. -/
def victimWay (c : LruCache T) (index : ℕ) : ℕ :=
  match (List.range k.numWays).find? fun way => !(c.entries index way).valid with
  | some way => way
  | none => c.selectVictim k index

/-- `insert`: the table, and the entry as it was before. -/
def insert (c : LruCache T) (key : ℕ) (data : T) : LruCache T × Entry T :=
  let index := key % k.numSets
  let tag := key / k.numSets
  match c.find k key with
  | some way =>
    let old := c.entries index way
    (c.setEntry index way { old with data := data }, old)
  | none =>
    let way := c.victimWay k index
    let old := c.entries index way
    let cam := if old.valid then Function.update (c.cams index) old.tag none else c.cams index
    ((c.setEntry index way ⟨key, index, tag, true, data⟩).setCam index
      (Function.update cam tag (some way)), old)

/-- `set_mru`. A tag that is not in the map would be added to it, with way 0. -/
def setMru (c : LruCache T) (key : ℕ) : LruCache T :=
  let index := key % k.numSets
  let way := (c.find k key).getD 0
  { c.setCam index (Function.update (c.cams index) (key / k.numSets) (some way)) with
    lru := Function.update c.lru index (Function.update (c.lru index) way c.t)
    t := c.t + 1 }

/-- An insertion is followed by `set_mru` in all tables. -/
def put (c : LruCache T) (key : ℕ) (data : T) : LruCache T × Entry T :=
  ((c.insert k key data).1.setMru k key, (c.insert k key data).2)

/-! ## Runs -/

/-- What the prefetchers do with a table: they insert, use and erase keys and change data in place. -/
inductive Op (T : Type*) where
  | insert (key : ℕ) (data : T)
  | use (key : ℕ)
  | modify (key : ℕ) (f : T → T)
  | erase (key : ℕ)

def Op.key : Op T → ℕ
  | insert key _ => key
  | use key => key
  | modify key _ => key
  | erase key => key

/-- An operation with the entry that it returns. -/
def step (c : LruCache T) : Op T → LruCache T × Option (ℕ × T)
  | .insert key data =>
    let (c', old) := c.put k key data
    (c', if old.valid then some (old.key, old.data) else none)
  | .use key =>
    match c.data? k key with
    | some data => (c.setMru k key, some (key, data))
    | none => (c, none)
  | .modify key f => (c.modify k key f, none)
  | .erase key =>
    let (c', old) := c.erase k key
    (c', old.map fun e => (e.key, e.data))

/-- A run with the entries that its operations return. -/
def run (c : LruCache T) : List (Op T) → LruCache T × List (Option (ℕ × T))
  | [] => (c, [])
  | op :: ops =>
    let (c', result) := c.step k op
    let (c'', results) := run c' ops
    (c'', result :: results)

end

end LruCache

end SetAssociativeCache

end Arishem
