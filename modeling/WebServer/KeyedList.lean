import Mathlib.Data.List.Nodup
import Mathlib.Data.List.Perm.Basic

/-!
# Finite maps as lists of key-value pairs

A map is a list with at most one pair for each key. `List.lookup` reads it;
`put` overwrites in place or appends, and `drop` removes a key. The order of the
pairs is the order of first insertion.
-/

namespace KeyedList

universe u v

variable {κ : Type u} {β : Type v} [DecidableEq κ]

def keys (l : List (κ × β)) : List κ := l.map Prod.fst

/-- At most one pair for each key. -/
def Keyed (l : List (κ × β)) : Prop := (keys l).Nodup

def put : List (κ × β) → κ → β → List (κ × β)
  | [], k, v => [(k, v)]
  | p :: rest, k, v => if p.1 = k then (k, v) :: rest else p :: put rest k v

def drop (l : List (κ × β)) (k : κ) : List (κ × β) := l.filter fun p => p.1 ≠ k

theorem lookup_head (p : κ × β) (rest : List (κ × β)) : (p :: rest).lookup p.1 = some p.2 :=
  List.lookup_cons_self

theorem lookup_tail {p : κ × β} {k : κ} (h : k ≠ p.1) (rest : List (κ × β)) :
    (p :: rest).lookup k = rest.lookup k := by
  obtain ⟨a, b⟩ := p
  rw [List.lookup_cons, beq_eq_false_iff_ne.mpr h]

@[simp] theorem lookup_put_self (l : List (κ × β)) (k : κ) (v : β) :
    (put l k v).lookup k = some v := by
  induction l with
  | nil => exact lookup_head (k, v) []
  | cons p rest ih =>
    by_cases h : p.1 = k
    · rw [put, if_pos h]
      exact lookup_head (k, v) rest
    · rw [put, if_neg h, lookup_tail (Ne.symm h)]
      exact ih

@[simp] theorem lookup_put_ne (l : List (κ × β)) {k k' : κ} (h : k' ≠ k) (v : β) :
    (put l k v).lookup k' = l.lookup k' := by
  induction l with
  | nil => exact lookup_tail (p := (k, v)) h []
  | cons p rest ih =>
    by_cases hp : p.1 = k
    · rw [put, if_pos hp, lookup_tail (p := (k, v)) h, lookup_tail (hp ▸ h)]
    · rw [put, if_neg hp]
      by_cases hk : k' = p.1
      · rw [hk, lookup_head, lookup_head]
      · rw [lookup_tail hk, lookup_tail hk, ih]

theorem lookup_put (l : List (κ × β)) (k k' : κ) (v : β) :
    (put l k v).lookup k' = if k' = k then some v else l.lookup k' := by
  by_cases h : k' = k
  · simp [h]
  · simp [h]

/-- The same for the equality test of the key type, whichever it is. -/
theorem lookup_put_lawful [inst : BEq κ] [LawfulBEq κ] (l : List (κ × β)) (k k' : κ) (v : β) :
    @List.lookup κ β inst k' (put l k v) = if k' = k then some v else @List.lookup κ β inst k' l := by
  have same : inst = instBEqOfDecidableEq := lawful_beq_subsingleton _ _
  rw [same]
  exact lookup_put l k k' v

theorem mem_keys_put (l : List (κ × β)) (k k' : κ) (v : β) :
    k' ∈ keys (put l k v) ↔ k' = k ∨ k' ∈ keys l := by
  induction l with
  | nil => simp [put, keys]
  | cons p rest ih =>
    by_cases hp : p.1 = k
    · simp [put, hp, keys]
    · simp only [put, if_neg hp, keys, List.map_cons, List.mem_cons] at ih ⊢
      rw [ih]
      exact or_left_comm

theorem keyed_put {l : List (κ × β)} (h : Keyed l) (k : κ) (v : β) : Keyed (put l k v) := by
  induction l with
  | nil => simp [put, Keyed, keys]
  | cons p rest ih =>
    have hrest : Keyed rest := (List.nodup_cons.mp h).2
    have hp : p.1 ∉ keys rest := (List.nodup_cons.mp h).1
    by_cases hk : p.1 = k
    · rw [put, if_pos hk]
      exact List.nodup_cons.mpr ⟨hk ▸ hp, hrest⟩
    · rw [put, if_neg hk]
      refine List.nodup_cons.mpr ⟨?_, ih hrest⟩
      intro hmem
      rcases (mem_keys_put rest k p.1 v).mp hmem with same | old
      · exact hk same
      · exact hp old

/-- A new key is appended at the end. -/
theorem put_new {l : List (κ × β)} {k : κ} (h : k ∉ keys l) (v : β) :
    put l k v = l ++ [(k, v)] := by
  induction l with
  | nil => rfl
  | cons p rest ih =>
    have hp : p.1 ≠ k := fun same => h (by simp [keys, same])
    have hrest : k ∉ keys rest := fun hmem => h (List.mem_cons_of_mem _ hmem)
    rw [put, if_neg hp, ih hrest, List.cons_append]

/-- Inserting distinct keys one after another lists them in order. -/
theorem foldl_put_distinct {l done : List (κ × β)} (h : Keyed (done ++ l)) :
    l.foldl (fun m p => put m p.1 p.2) done = done ++ l := by
  induction l generalizing done with
  | nil => simp
  | cons p rest ih =>
    have hp : p.1 ∉ keys done := by
      intro hmem
      have hnd : (keys done ++ keys (p :: rest)).Nodup := by
        simpa [Keyed, keys] using h
      exact (List.nodup_append.mp hnd).2.2 p.1 hmem p.1 (by simp [keys]) rfl
    rw [List.foldl_cons, put_new hp, ih (by simpa using h)]
    simp

theorem lookup_mem {l : List (κ × β)} {k : κ} {v : β} (h : l.lookup k = some v) :
    (k, v) ∈ l := by
  induction l with
  | nil => cases h
  | cons p rest ih =>
    by_cases hp : k = p.1
    · subst hp
      rw [lookup_head] at h
      exact Option.some.inj h ▸ List.mem_cons_self
    · rw [lookup_tail hp] at h
      exact List.mem_cons_of_mem _ (ih h)

theorem lookup_of_mem {l : List (κ × β)} (hl : Keyed l) {k : κ} {v : β}
    (h : (k, v) ∈ l) : l.lookup k = some v := by
  induction l with
  | nil => cases h
  | cons p rest ih =>
    have hp : p.1 ∉ keys rest := (List.nodup_cons.mp hl).1
    rcases List.mem_cons.mp h with same | hrest
    · rw [← same]
      exact lookup_head (k, v) rest
    · have hne : k ≠ p.1 := by
        rintro rfl
        exact hp (List.mem_map.mpr ⟨_, hrest, rfl⟩)
      rw [lookup_tail hne]
      exact ih (List.nodup_cons.mp hl).2 hrest

/-- A keyed list has exactly the pairs that its lookup finds. -/
theorem mem_iff_lookup {l : List (κ × β)} (hl : Keyed l) (k : κ) (v : β) :
    (k, v) ∈ l ↔ l.lookup k = some v :=
  ⟨lookup_of_mem hl, lookup_mem⟩

@[simp] theorem lookup_drop_self (l : List (κ × β)) (k : κ) :
    (drop l k).lookup k = none := by
  cases h : (drop l k).lookup k with
  | none => rfl
  | some v => simpa using (List.mem_filter.mp (lookup_mem h)).2

@[simp] theorem lookup_drop_ne (l : List (κ × β)) {k k' : κ} (h : k' ≠ k) :
    (drop l k).lookup k' = l.lookup k' := by
  induction l with
  | nil => rfl
  | cons p rest ih =>
    by_cases hp : p.1 = k
    · rw [lookup_tail (hp ▸ h), ← ih]
      simp [drop, hp]
    · have hd : drop (p :: rest) k = p :: drop rest k := by simp [drop, hp]
      rw [hd]
      by_cases hk : k' = p.1
      · rw [hk, lookup_head, lookup_head]
      · rw [lookup_tail hk, lookup_tail hk, ih]

theorem keyed_drop {l : List (κ × β)} (h : Keyed l) (k : κ) : Keyed (drop l k) :=
  h.sublist (List.filter_sublist.map Prod.fst)

/-- A finite map, with the proof that its keys are distinct. -/
structure Dict (κ : Type u) (β : Type v) [DecidableEq κ] where
  pairs : List (κ × β)
  keyed : Keyed pairs

namespace Dict

def empty : Dict κ β := ⟨[], List.nodup_nil⟩

def find (d : Dict κ β) (k : κ) : Option β := d.pairs.lookup k

def insert (d : Dict κ β) (k : κ) (v : β) : Dict κ β := ⟨put d.pairs k v, keyed_put d.keyed k v⟩

def erase (d : Dict κ β) (k : κ) : Dict κ β := ⟨drop d.pairs k, keyed_drop d.keyed k⟩

@[simp] theorem find_empty (k : κ) : (empty : Dict κ β).find k = none := rfl

@[simp] theorem find_insert_self (d : Dict κ β) (k : κ) (v : β) : (d.insert k v).find k = some v :=
  lookup_put_self d.pairs k v

theorem find_insert_ne (d : Dict κ β) {k k' : κ} (h : k' ≠ k) (v : β) :
    (d.insert k v).find k' = d.find k' :=
  lookup_put_ne d.pairs h v

theorem find_insert (d : Dict κ β) (k k' : κ) (v : β) :
    (d.insert k v).find k' = if k' = k then some v else d.find k' :=
  lookup_put d.pairs k k' v

theorem find_of_insert {d : Dict κ β} {k k' : κ} {v w : β}
    (h : (d.insert k v).find k' = some w) : k' = k ∧ w = v ∨ k' ≠ k ∧ d.find k' = some w := by
  rw [find_insert] at h
  by_cases hk : k' = k
  · rw [if_pos hk] at h
    exact Or.inl ⟨hk, (Option.some.inj h).symm⟩
  · rw [if_neg hk] at h
    exact Or.inr ⟨hk, h⟩

@[simp] theorem find_erase_self (d : Dict κ β) (k : κ) : (d.erase k).find k = none :=
  lookup_drop_self d.pairs k

theorem find_erase_ne (d : Dict κ β) {k k' : κ} (h : k' ≠ k) : (d.erase k).find k' = d.find k' :=
  lookup_drop_ne d.pairs h

theorem find_of_erase {d : Dict κ β} {k k' : κ} {v : β} (h : (d.erase k).find k' = some v) :
    d.find k' = some v := by
  by_cases hk : k' = k
  · rw [hk, find_erase_self] at h
    cases h
  · exact (find_erase_ne d hk).symm.trans h

/-- The pairs are exactly what `find` finds. -/
theorem mem_pairs_iff (d : Dict κ β) (k : κ) (v : β) : (k, v) ∈ d.pairs ↔ d.find k = some v :=
  mem_iff_lookup d.keyed k v

/-- When one key alone satisfies a test, filtering by it leaves one pair, in whatever
order the pairs are listed. -/
theorem filter_single (d : Dict κ β) {k : κ} {v : β} (test : κ → Bool) (hk : test k = true)
    (found : d.find k = some v) (only : ∀ n w, d.find n = some w → test n = true → n = k)
    {listed : List (κ × β)} (perm : listed.Perm d.pairs) :
    listed.filter (fun p => test p.1) = [(k, v)] := by
  have hsingle : d.pairs.filter (fun p => test p.1) = [(k, v)] := by
    have hnodup : (d.pairs.filter fun p => test p.1).Nodup :=
      (List.Nodup.of_map _ d.keyed).sublist List.filter_sublist
    refine List.perm_singleton.mp ((List.perm_ext_iff_of_nodup hnodup (by simp)).mpr ?_)
    rintro ⟨n, w⟩
    rw [List.mem_filter, List.mem_singleton, mem_pairs_iff]
    constructor
    · rintro ⟨hfind, htest⟩
      obtain rfl := only n w hfind htest
      exact Prod.ext rfl (Option.some.inj (hfind.symm.trans found))
    · intro same
      obtain ⟨rfl, rfl⟩ := Prod.mk.inj same
      exact ⟨found, hk⟩
  exact List.perm_singleton.mp (hsingle ▸ perm.filter _)

end Dict

end KeyedList
