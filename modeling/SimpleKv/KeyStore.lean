import SimpleKv.Rust

/- `key_store.rs`: an open-addressing hash table with Robin Hood insertion and
   backward-shift deletion. An entry remembers its hash and its probe sequence
   length `psl`, the distance from the bucket its hash names. The `loop`s of the
   source have no counter: here each is given as many iterations as the table has
   buckets, and reports `Fault.spin` if these do not suffice. A function whose name ends
   in `With` takes what differs between the builds of the table: the addition, which
   wraps in a release build, the load test, and what is to be done for each entry that is
   moved. The functions of the release build have the names of the source. -/
namespace SimpleKv

def startCapacity : Nat := 16

/-- A lower bound for `size_of::<Option<Entry<K, V>>>()`: the words `psl` and `hash`. -/
def entrySize : Nat := 16

structure Entry (K V : Type) where
  key : K
  value : V
  psl : Nat
  hash : UInt64
  deriving DecidableEq

structure KeyStore (K V : Type) where
  len : Nat
  buckets : List (Option (Entry K V))
  /-- `hasher.hash_one` -/
  hasher : K → UInt64

namespace KeyStore
variable {K V : Type}

def withHasher (hasher : K → UInt64) : KeyStore K V where
  len := 0
  buckets := List.replicate startCapacity none
  hasher := hasher

def iter (self : KeyStore K V) : List (K × V) :=
  self.buckets.reduceOption.map (fun entry => (entry.key, entry.value))

/-- `len / buckets.len() >= RESIZE_FACTOR`, for `RESIZE_FACTOR = 0.75`. -/
def shouldResize (self : KeyStore K V) : Bool :=
  4 * self.len ≥ 3 * self.buckets.length

/-- `(hash as usize + psl) & (buckets.len() - 1)`, where `add` is the addition. -/
def getBucketIndexWith (add : Nat → Nat → Rust Nat) (buckets : List (Option (Entry K V)))
    (hash : UInt64) (psl : Nat) : Rust Nat := do
  return (← add hash.toNat psl) &&& (buckets.length - 1)

/-- The same where the addition wraps. -/
def getBucketIndex (buckets : List (Option (Entry K V))) (hash : UInt64) (psl : Nat) : Nat :=
  ((hash.toNat + psl) % 2^64) &&& (buckets.length - 1)

@[simp] theorem getBucketIndexWith_wrapping (buckets : List (Option (Entry K V))) (hash : UInt64)
    (psl : Nat) : getBucketIndexWith wrappingAdd buckets hash psl =
      .ok (getBucketIndex buckets hash psl) := rfl

def insertEntryLoopWith (add : Nat → Nat → Rust Nat) : Nat → List (Option (Entry K V)) →
    Entry K V → Rust (List (Option (Entry K V)))
  | 0, _, _ => .error .spin
  | fuel+1, buckets, entry => do
    let i ← getBucketIndexWith add buckets entry.hash entry.psl
    match ← index buckets i with
    | none => return buckets.set i (some entry)
    | some e =>
      if e.psl < entry.psl then
        insertEntryLoopWith add fuel (buckets.set i (some entry)) { e with psl := e.psl + 1 }
      else
        insertEntryLoopWith add fuel buckets { entry with psl := entry.psl + 1 }

def insertEntryWith (add : Nat → Nat → Rust Nat) (self : KeyStore K V) (entry : Entry K V) :
    Rust (KeyStore K V) := do
  let buckets ← insertEntryLoopWith add self.buckets.length self.buckets { entry with psl := 0 }
  return { self with buckets }

def insertEntryLoop : Nat → List (Option (Entry K V)) → Entry K V →
    Rust (List (Option (Entry K V))) :=
  insertEntryLoopWith wrappingAdd

def insertEntry : KeyStore K V → Entry K V → Rust (KeyStore K V) := insertEntryWith wrappingAdd

/-- `resize`, with `insertEntry` for each entry. -/
def resizeWith {m : Type → Type} [Monad m] [MonadLiftT Rust m]
    (insertEntry : KeyStore K V → Entry K V → m (KeyStore K V)) (self : KeyStore K V) :
    m (KeyStore K V) := do
  let newCapacity := self.buckets.length * 2
  reserve newCapacity entrySize
  let oldBuckets := self.buckets
  oldBuckets.reduceOption.foldlM insertEntry
    { self with buckets := List.replicate newCapacity none }

def resize : KeyStore K V → Rust (KeyStore K V) := resizeWith insertEntry

theorem resizeWith_ok {m : Type → Type} [Monad m] [LawfulMonad m] [MonadLiftT Rust m]
    [LawfulMonadLiftT Rust m] {insertEntry : KeyStore K V → Entry K V → m (KeyStore K V)}
    {self : KeyStore K V} (hmem : self.buckets.length * 2 * entrySize ≤ isizeMax) :
    resizeWith insertEntry self = self.buckets.reduceOption.foldlM insertEntry
      { self with buckets := List.replicate (self.buckets.length * 2) none } := by
  have hlift : (liftM (.ok () : Rust Unit) : m Unit) = pure () := liftM_pure ()
  unfold resizeWith
  simp only [reserve_ok hmem, hlift, pure_bind]

variable [DecidableEq K]

/-- The backward shift: the hole is at `idx`. -/
def shiftLoop : Nat → List (Option (Entry K V)) → Nat → Rust (List (Option (Entry K V)))
  | 0, _, _ => .error .spin
  | fuel+1, buckets, idx => do
    let next := (idx + 1) &&& (buckets.length - 1)
    match ← index buckets next with
    | none => return buckets
    | some e =>
      if e.psl > 0 then
        -- the hole and the entry after it change places
        let hole ← index buckets idx
        shiftLoop fuel ((buckets.set idx (some { e with psl := e.psl - 1 })).set next hole) next
      else
        return buckets

def delLoopWith (add : Nat → Nat → Rust Nat) : Nat → KeyStore K V → K → UInt64 → Nat →
    Rust (Option V × KeyStore K V)
  | 0, _, _, _, _ => .error .spin
  | fuel+1, self, key, hash, psl => do
    let i ← getBucketIndexWith add self.buckets hash psl
    match ← index self.buckets i with
    | none => return (none, self)
    | some e =>
      if e.psl < psl then
        return (none, self)
      else if e.hash = hash ∧ e.key = key then
        let buckets ← shiftLoop self.buckets.length (self.buckets.set i none) i
        return (some e.value, { self with len := self.len - 1, buckets })
      else
        delLoopWith add fuel self key hash (psl + 1)

def delLoop : Nat → KeyStore K V → K → UInt64 → Nat → Rust (Option V × KeyStore K V) :=
  delLoopWith wrappingAdd

def del (self : KeyStore K V) (key : K) : Rust (Option V × KeyStore K V) :=
  delLoop self.buckets.length self key (self.hasher key) 0

def indexOfLoopWith (add : Nat → Nat → Rust Nat) : Nat → KeyStore K V → K → UInt64 → Nat →
    Rust (Option Nat)
  | 0, _, _, _, _ => .error .spin
  | fuel+1, self, key, hash, psl => do
    let i ← getBucketIndexWith add self.buckets hash psl
    match ← index self.buckets i with
    | none => return none
    | some e =>
      if e.psl < psl then
        return none
      else if e.hash = hash ∧ e.key = key then
        return some i
      else
        indexOfLoopWith add fuel self key hash (psl + 1)

def indexOfLoop : Nat → KeyStore K V → K → UInt64 → Nat → Rust (Option Nat) :=
  indexOfLoopWith wrappingAdd

def indexOf (self : KeyStore K V) (key : K) : Rust (Option Nat) :=
  indexOfLoop self.buckets.length self key (self.hasher key) 0

/-- `get`, with `indexOf`. -/
def getWith (indexOf : KeyStore K V → K → Rust (Option Nat)) (self : KeyStore K V) (key : K) :
    Rust (Option V) := do
  match ← indexOf self key with
  | none => return none
  | some i => return (← index self.buckets i).map (·.value)

def get : KeyStore K V → K → Rust (Option V) := getWith indexOf

/-- The value `get_mut` lends, and the table after the borrower replaced it by `update`
    of it. -/
def getMutWith (indexOf : KeyStore K V → K → Rust (Option Nat)) (self : KeyStore K V) (key : K)
    (update : V → V) : Rust (Option V × KeyStore K V) := do
  match ← indexOf self key with
  | none => return (none, self)
  | some i =>
    match ← index self.buckets i with
    | none => return (none, self)
    | some e =>
      return (some e.value,
        { self with buckets := self.buckets.set i (some { e with value := update e.value }) })

def getMut : KeyStore K V → K → (V → V) → Rust (Option V × KeyStore K V) := getMutWith indexOf

/-- The loop of `insert`: the value replaced, or `none` when the entry took a free
    bucket. -/
def insertLoopWith (add : Nat → Nat → Rust Nat) : Nat → List (Option (Entry K V)) → Entry K V →
    Nat → Rust (Option V × List (Option (Entry K V)))
  | 0, _, _, _ => .error .spin
  | fuel+1, buckets, entry, i => do
    match ← index buckets i with
    | none => return (none, buckets.set i (some entry))
    | some e =>
      if e.hash = entry.hash ∧ e.key = entry.key then
        return (some e.value, buckets.set i (some { e with value := entry.value }))
      else if e.psl < entry.psl then
        -- robin hood swapping, richer entries reinserted
        insertLoopWith add fuel (buckets.set i (some entry)) { e with psl := e.psl + 1 }
          (← getBucketIndexWith add buckets e.hash (e.psl + 1))
      else
        insertLoopWith add fuel buckets { entry with psl := entry.psl + 1 }
          (← getBucketIndexWith add buckets entry.hash (entry.psl + 1))

def insertLoop : Nat → List (Option (Entry K V)) → Entry K V → Nat →
    Rust (Option V × List (Option (Entry K V))) :=
  insertLoopWith wrappingAdd

/-- `insert`, with the test whether to grow, and `resize`. -/
def insertWith {m : Type → Type} [Monad m] [MonadLiftT Rust m] (add : Nat → Nat → Rust Nat)
    (shouldResize : KeyStore K V → Bool) (resize : KeyStore K V → m (KeyStore K V))
    (self : KeyStore K V) (key : K) (value : V) : m (Option V × KeyStore K V) := do
  let hash := self.hasher key
  let entry : Entry K V := ⟨key, value, 0, hash⟩
  let i ← getBucketIndexWith add self.buckets entry.hash entry.psl
  match ← insertLoopWith add self.buckets.length self.buckets entry i with
  | (some old, buckets) => return (some old, { self with buckets })
  | (none, buckets) =>
    let self := { self with len := self.len + 1, buckets }
    if shouldResize self then
      return (none, ← resize self)
    else
      return (none, self)

def insert : KeyStore K V → K → V → Rust (Option V × KeyStore K V) :=
  insertWith wrappingAdd shouldResize resize

/-! What `insert` does after its loop, whichever build it is of. -/

section Insert
variable {m : Type → Type} [Monad m] [LawfulMonad m] [MonadLiftT Rust m] [LawfulMonadLiftT Rust m]
  {add : Nat → Nat → Rust Nat} {shouldResize : KeyStore K V → Bool}
  {resize : KeyStore K V → m (KeyStore K V)} {self : KeyStore K V} {key : K} {value : V} {i : Nat}
  {buckets : List (Option (Entry K V))}

theorem insertWith_present {old : V}
    (hidx : getBucketIndexWith add self.buckets (self.hasher key) 0 = .ok i)
    (hloop : insertLoopWith add self.buckets.length self.buckets ⟨key, value, 0, self.hasher key⟩ i =
      .ok (some old, buckets)) :
    insertWith add shouldResize resize self key value = pure (some old, { self with buckets }) := by
  have hlift : ∀ {α : Type} (a : α), (liftM (.ok a : Rust α) : m α) = pure a := fun a => liftM_pure a
  unfold insertWith
  simp only [hidx, hloop, hlift, pure_bind]

theorem insertWith_absent
    (hidx : getBucketIndexWith add self.buckets (self.hasher key) 0 = .ok i)
    (hloop : insertLoopWith add self.buckets.length self.buckets ⟨key, value, 0, self.hasher key⟩ i =
      .ok (none, buckets)) :
    insertWith add shouldResize resize self key value =
      if shouldResize { self with len := self.len + 1, buckets } then
        (fun store => (none, store)) <$> resize { self with len := self.len + 1, buckets }
      else pure (none, { self with len := self.len + 1, buckets }) := by
  have hlift : ∀ {α : Type} (a : α), (liftM (.ok a : Rust α) : m α) = pure a := fun a => liftM_pure a
  unfold insertWith
  simp only [hidx, hloop, hlift, pure_bind, map_eq_pure_bind]

end Insert

end KeyStore
end SimpleKv
