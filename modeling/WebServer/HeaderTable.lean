import WebServer.HttpResponse

/-!
# The order in which a header map is read

The `unordered_map` of the GNU library chains all its entries. A new entry goes before the
first one of its bucket, or to the front of the chain when the bucket is empty; a map that
outgrows its buckets takes more of them and puts the entries in again, in the order of the
chain. `clear` empties the chain and keeps the buckets, so that the order of the same entries
also depends on how many the map has once held.
-/

namespace WebServer

/-! ## The hash of a string -/

namespace StringHash

def mul : UInt64 := 0xc6a4a7935bd1e995

def shiftMix (v : UInt64) : UInt64 := v ^^^ (v >>> 47)

/-- Up to eight bytes, the first of them lowest. -/
def loadBytes (s : Str) : UInt64 := s.foldr (fun b word => word * 256 + b.toUInt64) 0

/-- The loop over whole words, and the bytes that are left after it. -/
def hashWords : Nat → Str → UInt64 → UInt64
  | 0, _, hash => hash
  | fuel + 1, s, hash =>
    if s.length < 8 then (if s = [] then hash else (hash ^^^ loadBytes s) * mul)
    else
      hashWords fuel (s.drop 8) ((hash ^^^ shiftMix (loadBytes (s.take 8) * mul) * mul) * mul)

/-- `std::hash` of a string. -/
def hashBytes (s : Str) : UInt64 :=
  shiftMix (shiftMix (hashWords (s.length + 1) s (0xc70f6907 ^^^ s.length.toUInt64 * mul)) * mul)

end StringHash

/-! ## Buckets and chain -/

structure HeaderTable where
  buckets : Nat
  chain : List (Str × Str)

namespace HeaderTable

/-- The numbers of buckets that a map goes through as it grows, one entry at a time. -/
def sizes : List Nat :=
  [1, 13, 29, 59, 127, 257, 541, 1109, 2357, 5087, 10273, 20753, 42043, 85229, 172933, 351061,
    712697, 1447153, 2938679, 5967347]

/-- A constructed map has one bucket and takes more for its first entry. -/
def grown (buckets entries : Nat) : Nat :=
  if buckets = 1 ∨ buckets ≤ entries then (sizes.find? (buckets < ·)).getD buckets else buckets

def bucketOf (buckets : Nat) (e : Str × Str) : Nat := (StringHash.hashBytes e.1).toNat % buckets

def place (buckets : Nat) (chain : List (Str × Str)) (e : Str × Str) : List (Str × Str) :=
  if chain.any fun x => bucketOf buckets x = bucketOf buckets e then
    chain.takeWhile (fun x => bucketOf buckets x ≠ bucketOf buckets e) ++
      e :: chain.dropWhile fun x => bucketOf buckets x ≠ bucketOf buckets e
  else e :: chain

def rehash (buckets : Nat) (chain : List (Str × Str)) : List (Str × Str) :=
  chain.foldl (place buckets) []

/-- An entry with a new key. -/
def insert (t : HeaderTable) (e : Str × Str) : HeaderTable :=
  let buckets := grown t.buckets t.chain.length
  let chain := if buckets = t.buckets then t.chain else rehash buckets t.chain
  { buckets, chain := place buckets chain e }

/-- A map with that many buckets and no entries, after the entries in this order. -/
def fill (buckets : Nat) (entries : List (Str × Str)) : HeaderTable :=
  entries.foldl insert { buckets, chain := [] }

theorem place_perm (buckets : Nat) (chain : List (Str × Str)) (e : Str × Str) :
    (place buckets chain e).Perm (e :: chain) := by
  rw [place]
  split
  · refine List.perm_middle.trans (List.Perm.cons e ?_)
    rw [List.takeWhile_append_dropWhile]
  · exact List.Perm.refl _

theorem foldl_place_perm (buckets : Nat) (entries chain : List (Str × Str)) :
    (entries.foldl (place buckets) chain).Perm (entries ++ chain) := by
  induction entries generalizing chain with
  | nil => exact List.Perm.refl _
  | cons e entries ih =>
    have hplaced := (place_perm buckets chain e).append_left entries
    exact (ih (place buckets chain e)).trans (hplaced.trans List.perm_middle)

theorem insert_perm (t : HeaderTable) (e : Str × Str) : (t.insert e).chain.Perm (e :: t.chain) := by
  refine (place_perm _ _ e).trans (List.Perm.cons e ?_)
  split
  · exact List.Perm.refl _
  · have hrehashed := foldl_place_perm (grown t.buckets t.chain.length) t.chain []
    rwa [List.append_nil] at hrehashed

theorem fill_perm (buckets : Nat) (entries : List (Str × Str)) :
    (fill buckets entries).chain.Perm entries := by
  have hfold : ∀ (t : HeaderTable), (entries.foldl insert t).chain.Perm (entries ++ t.chain) := by
    induction entries with
    | nil => exact fun t => List.Perm.refl _
    | cons e entries ih =>
      intro t
      exact (ih (t.insert e)).trans (((insert_perm t e).append_left entries).trans List.perm_middle)
  have hall := hfold { buckets, chain := [] }
  rwa [List.append_nil] at hall

/-- The order of a map that had so many buckets when it was last cleared. -/
def order (buckets : Nat) : HeaderOrder := ⟨fun entries => (fill buckets entries).chain,
  fill_perm buckets⟩

/-! ## What a cleared map keeps -/

/-- The buckets after these entries, and after `clear`. -/
def bucketsAfter (buckets : Nat) (entries : List (Str × Str)) : Nat :=
  (fill buckets entries).buckets

/-- A map in use has thirteen buckets until it holds more entries than that. -/
theorem foldl_insert_buckets {t : HeaderTable} (h : t.buckets = 13) {entries : List (Str × Str)}
    (few : t.chain.length + entries.length ≤ 13) : (entries.foldl insert t).buckets = 13 := by
  induction entries generalizing t with
  | nil => exact h
  | cons e entries ih =>
    rw [List.length_cons] at few
    have hgrown : grown t.buckets t.chain.length = 13 := by
      rw [grown, h, if_neg (by omega)]
    have hlength : (t.insert e).chain.length = t.chain.length + 1 := (insert_perm t e).length_eq
    exact ih hgrown (by omega)

/-- The first entry of a constructed map finds as many buckets as that of a cleared one. -/
theorem fill_constructed (entries : List (Str × Str)) :
    (fill 1 entries).chain = (fill 13 entries).chain := by
  cases entries with
  | nil => rfl
  | cons e entries => rfl

/-- A map that never held more than thirteen entries reads its next ones like a new map. -/
theorem order_small {before : List (Str × Str)} (few : before.length ≤ 13)
    (entries : List (Str × Str)) :
    (order (bucketsAfter 1 before)).order entries = (order 1).order entries := by
  cases before with
  | nil => rfl
  | cons e before =>
    have hfirst : fill 1 (e :: before) = before.foldl insert { buckets := 13, chain := [e] } := rfl
    have hbuckets : bucketsAfter 1 (e :: before) = 13 := by
      rw [bucketsAfter, hfirst]
      refine foldl_insert_buckets rfl ?_
      rw [List.length_cons] at few
      show 1 + before.length ≤ 13
      omega
    rw [hbuckets]
    exact (fill_constructed entries).symm

/-- The three default headers, in a new map and in one that once held fourteen. -/
example :
    let headers := [lit "Content-Type", lit "Content-Length", lit "Connection"].map fun key =>
      (key, lit "v")
    ((order 1).order headers).map (·.1) =
        [lit "Connection", lit "Content-Length", lit "Content-Type"] ∧
      ((order 29).order headers).map (·.1) =
        [lit "Content-Length", lit "Connection", lit "Content-Type"] := by
  decide +kernel

end HeaderTable

end WebServer
