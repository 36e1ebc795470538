import Mathlib.Data.List.Induction
import Mathlib.Data.List.Nodup
import Mathlib.Data.List.Perm.Basic
import QuoteScript.Value.Same

/-!
# `QuoteScript.Proofs.Value.Entries`: the entries of a dict

The entries of a dict come of pairs that are put there one after the
other. A pair with a new key comes last, and a pair with an old one takes
the place of the pair that was there. So the keys stand in the order in
which they were first given, each of them once, and the value under a key
is that of the last pair with the key. Of this, everything else is said
by induction on the pairs from the last one backwards.

A dict can also be kept by hash keys: a key is described by its kind and
a word of 64 bits, which for a string is a hash. Such a dict keeps each
pair under the hash key of the value that is its key, whatever the hash
is. And as long as no two of the strings have the same one, it has the
same entries in the same order.

* `insertPair`: putting something under a key.
* `dictOf`: the entries that come of pairs.
* `keys_dictOf`, `nodup_dictOf`, `valueUnder?_dictOf`: its keys, and the
  value under a key.
* `Value.hashKey?`, `Kept`: pairs that are kept by hash keys.
* `Kept.nodup`, `Kept.hashKey?_key`: their invariant.
* `hashed`: the entries of a dict by hash keys.
* `foldl_insertPair_eq`, `lookup_hashed`: they are the same entries.
-/

set_option autoImplicit false

namespace QuoteScript

variable {key other : Key} {v w : Value} {entries : List (Key × Value)}

/-! ### Putting a pair -/

section Insert

variable {κ β : Type} [DecidableEq κ] {k : κ} {b : β} {kept : List (κ × β)}

/-- Puts a pair under a key. A pair that is there is replaced where it
stands, with its key; a new one comes last. -/
def insertPair (k : κ) (b : β) : List (κ × β) → List (κ × β)
  | [] => [(k, b)]
  | first :: rest => if first.1 = k then (k, b) :: rest else first :: insertPair k b rest

/-- A key keeps its place, and a new one comes last. -/
theorem keys_insertPair (k : κ) (b : β) (kept : List (κ × β)) :
    (insertPair k b kept).map Prod.fst =
      if k ∈ kept.map Prod.fst then kept.map Prod.fst else kept.map Prod.fst ++ [k] := by
  induction kept with
  | nil => rfl
  | cons first rest ih =>
      rw [insertPair]
      by_cases hfirst : first.1 = k
      · simp [hfirst]
      · have hne : k ≠ first.1 := fun h => hfirst h.symm
        rw [if_neg hfirst, List.map_cons, ih]
        simp only [List.map_cons, List.mem_cons, hne, false_or]
        split <;> rfl

/-- No key is there twice if none was. -/
theorem nodup_insertPair (h : (kept.map Prod.fst).Nodup) (k : κ) (b : β) :
    ((insertPair k b kept).map Prod.fst).Nodup := by
  rw [keys_insertPair]
  split
  · exact h
  · next hnew =>
      rw [← List.concat_eq_append]
      exact h.concat hnew

/-- What is there was put there, or was there before. -/
theorem mem_insertPair {entry : κ × β} (h : entry ∈ insertPair k b kept) :
    entry = (k, b) ∨ entry ∈ kept := by
  induction kept with
  | nil => exact .inl (List.mem_singleton.mp h)
  | cons first rest ih =>
      rw [insertPair] at h
      split at h
      · exact (List.mem_cons.mp h).imp_right (List.mem_cons_of_mem _)
      · rcases List.mem_cons.mp h with rfl | hrest
        · exact .inr List.mem_cons_self
        · exact (ih hrest).imp_right (List.mem_cons_of_mem _)

end Insert

/-- The entries of a dict are put in this way. -/
theorem putEntry_eq_insertPair (key : Key) (v : Value) (entries : List (Key × Value)) :
    putEntry key v entries = insertPair key v entries := by
  induction entries with
  | nil => rfl
  | cons entry rest ih => rw [putEntry, insertPair, ih]

/-- A key keeps its place, and a new one comes last. -/
theorem keys_putEntry (key : Key) (v : Value) (entries : List (Key × Value)) :
    (putEntry key v entries).map Prod.fst =
      if key ∈ entries.map Prod.fst then entries.map Prod.fst
      else entries.map Prod.fst ++ [key] := by
  rw [putEntry_eq_insertPair, keys_insertPair]

/-- A key is found in the first entry, or looked for behind it. -/
theorem valueUnder?_cons (key : Key) (entry : Key × Value) (rest : List (Key × Value)) :
    valueUnder? key (entry :: rest) =
      if key = entry.1 then some entry.2 else valueUnder? key rest := by
  rw [valueUnder?, List.lookup_cons]
  by_cases h : key = entry.1
  · rw [if_pos h, beq_iff_eq.mpr h]
  · rw [if_neg h, beq_eq_false_iff_ne.mpr h, valueUnder?]

/-- What is put in under a key is found under it, and nothing else is
changed. -/
theorem valueUnder?_putEntry (key other : Key) (v : Value) (entries : List (Key × Value)) :
    valueUnder? other (putEntry key v entries) =
      if other = key then some v else valueUnder? other entries := by
  induction entries with
  | nil => exact valueUnder?_cons other (key, v) []
  | cons entry rest ih =>
      rw [putEntry]
      by_cases hentry : entry.1 = key
      -- The value takes the place of the old one.
      · rw [if_pos hentry, valueUnder?_cons, valueUnder?_cons, hentry]
        split <;> rfl
      · rw [if_neg hentry, valueUnder?_cons, valueUnder?_cons, ih]
        by_cases h : other = entry.1
        · rw [if_pos h, if_neg (h ▸ hentry), if_pos h]
        · rw [if_neg h, if_neg h]

/-- What is in the entries is what was put there, or was there before. -/
theorem mem_putEntry {entry : Key × Value} (h : entry ∈ putEntry key v entries) :
    entry = (key, v) ∨ entry ∈ entries :=
  mem_insertPair (putEntry_eq_insertPair key v entries ▸ h)

/-- What stands under a key is one of the entries. -/
theorem mem_of_valueUnder? (h : valueUnder? key entries = some v) : (key, v) ∈ entries := by
  induction entries with
  | nil => cases h
  | cons entry rest ih =>
      rw [valueUnder?_cons] at h
      split at h
      · next hkey =>
          cases h
          rw [hkey]
          exact List.mem_cons_self
      · exact List.mem_cons_of_mem _ (ih h)

/-- What stands under a key, when no key stands there twice. -/
theorem valueUnder?_of_mem {entry : Key × Value}
    (hentries : (entries.map Prod.fst).Nodup) (h : entry ∈ entries) :
    valueUnder? entry.1 entries = some entry.2 := by
  induction entries with
  | nil => cases h
  | cons first rest ih =>
      rw [List.map_cons, List.nodup_cons] at hentries
      rw [valueUnder?_cons]
      obtain rfl | hrest := List.mem_cons.mp h
      · rw [if_pos rfl]
      · have hne : entry.1 ≠ first.1 := fun heq =>
          hentries.1 (heq ▸ List.mem_map_of_mem hrest)
        rw [if_neg hne, ih hentries.2 hrest]

/-- A pair with a new key comes last. -/
theorem putEntry_of_new (h : key ∉ entries.map Prod.fst) (v : Value) :
    putEntry key v entries = entries ++ [(key, v)] := by
  induction entries with
  | nil => rfl
  | cons first rest ih =>
      rw [List.map_cons, List.mem_cons, not_or] at h
      rw [putEntry, if_neg (Ne.symm h.1), ih h.2, List.cons_append]

/-! ### Entries that come of pairs -/

/-- The entries that come of pairs, put one after the other. -/
def dictOf (pairs : List (Key × Value)) : List (Key × Value) :=
  pairs.foldl (fun entries pair => putEntry pair.1 pair.2 entries) []

/-- The last pair is put in behind the others. -/
theorem dictOf_append (pairs : List (Key × Value)) (key : Key) (v : Value) :
    dictOf (pairs ++ [(key, v)]) = putEntry key v (dictOf pairs) := by
  rw [dictOf, List.foldl_append]
  rfl

/-- The keys stand in the order in which they were first given. -/
theorem keys_dictOf (pairs : List (Key × Value)) :
    (dictOf pairs).map Prod.fst = (pairs.map Prod.fst).eraseDups := by
  induction pairs using List.reverseRecOn with
  | nil => rfl
  | append_singleton pairs pair ih =>
      rw [dictOf_append, keys_putEntry, ih, List.map_append, List.eraseDups_append]
      -- An old key changes neither side, and a new one comes last on both.
      by_cases hmem : pair.1 ∈ pairs.map Prod.fst
      · rw [if_pos (List.mem_eraseDups.mpr hmem)]
        simp [List.removeAll, hmem]
      · rw [if_neg (mt List.mem_eraseDups.mp hmem)]
        simp [List.removeAll, hmem, List.eraseDups_cons]

/-- No key stands there twice. -/
theorem nodup_dictOf (pairs : List (Key × Value)) : ((dictOf pairs).map Prod.fst).Nodup := by
  induction pairs using List.reverseRecOn with
  | nil => exact List.nodup_nil
  | append_singleton pairs pair ih =>
      rw [dictOf_append, putEntry_eq_insertPair]
      exact nodup_insertPair ih pair.1 pair.2

/-- The value under a key is that of the last pair with the key. -/
theorem valueUnder?_dictOf (key : Key) (pairs : List (Key × Value)) :
    valueUnder? key (dictOf pairs) = pairs.reverse.lookup key := by
  induction pairs using List.reverseRecOn with
  | nil => rfl
  | append_singleton pairs pair ih =>
      rw [dictOf_append, valueUnder?_putEntry, ih, List.reverse_append, List.reverse_singleton,
        List.singleton_append]
      exact (valueUnder?_cons key pair pairs.reverse).symm

/-- What stands there was given. -/
theorem mem_of_mem_dictOf {pairs : List (Key × Value)} {pair : Key × Value}
    (h : pair ∈ dictOf pairs) : pair ∈ pairs := by
  induction pairs using List.reverseRecOn with
  | nil => cases h
  | append_singleton pairs last ih =>
      rw [dictOf_append] at h
      obtain rfl | hold := mem_putEntry h
      · exact List.mem_append_right _ List.mem_cons_self
      · exact List.mem_append_left _ (ih hold)

/-- Pairs with different keys are the entries. -/
theorem dictOf_eq_self {pairs : List (Key × Value)} (h : (pairs.map Prod.fst).Nodup) :
    dictOf pairs = pairs := by
  induction pairs using List.reverseRecOn with
  | nil => rfl
  | append_singleton pairs last ih =>
      rw [List.map_append, List.nodup_append] at h
      obtain ⟨hpairs, -, hdisjoint⟩ := h
      have hnew : last.1 ∉ pairs.map Prod.fst := fun hmem =>
        hdisjoint _ hmem _ (List.mem_singleton_self _) rfl
      rw [dictOf_append, ih hpairs, putEntry_of_new hnew]

/-! ### Hash keys -/

/-- What describes a key: its kind, and a word of 64 bits. -/
structure HashKey where
  kind : ValueKind
  word : UInt64
  deriving DecidableEq, Repr

/-- A pair that is kept under a hash key. -/
structure HashPair where
  key : Value
  value : Value

/-- The hash key of a value that can be a key. A negative integer is read
as a word without a sign, and a string is hashed. -/
def Value.hashKey? (hash : String → UInt64) (v : Value) : Option HashKey :=
  match v with
  | .int n => some ⟨v.kind, n.toUInt64⟩
  | .bool b => some ⟨v.kind, if b then 1 else 0⟩
  | .str s => some ⟨v.kind, hash s⟩
  | _ => none

/-- Pairs that are kept by hash keys. They have been put there one after
the other, each of them under the hash key of the value that is its key. -/
inductive Kept (hash : String → UInt64) : List (HashKey × HashPair) → Prop where
  | empty : Kept hash []
  | insert {kept : List (HashKey × HashPair)} {k : HashKey} {pair : HashPair} (h : Kept hash kept)
      (hk : pair.key.hashKey? hash = some k) : Kept hash (insertPair k pair kept)

/-- The hash key of a key. -/
def Key.hashKey (hash : String → UInt64) : Key → HashKey
  | int n => ⟨.integer, n.toUInt64⟩
  | bool b => ⟨.boolean, if b then 1 else 0⟩
  | str s => ⟨.string, hash s⟩

/-- The entries of a dict, by hash keys. -/
def hashed (hash : String → UInt64) (entries : List (Key × Value)) : List (HashKey × HashPair) :=
  entries.map fun entry => (entry.1.hashKey hash, ⟨entry.1.toValue, entry.2⟩)

/-- No two of the strings among the keys have the same hash. -/
def TellsApart (hash : String → UInt64) (keys : List Key) : Prop :=
  ∀ s s', .str s ∈ keys → .str s' ∈ keys → hash s = hash s' → s = s'

section Hashed

variable {hash : String → UInt64} {keys keys' : List Key}

/-- A value is hashed by the key it makes. -/
theorem Value.hashKey?_eq (hash : String → UInt64) (v : Value) :
    v.hashKey? hash = v.key?.map (Key.hashKey hash) := by
  cases v <;> rfl

/-- A key has a hash key when it is looked at as a value. -/
theorem Value.hashKey?_toValue (hash : String → UInt64) (key : Key) :
    key.toValue.hashKey? hash = some (key.hashKey hash) := by
  cases key <;> rfl

/-- A hash that tells keys apart tells any of them apart. -/
theorem TellsApart.mono (h : TellsApart hash keys) (hsubset : keys' ⊆ keys) :
    TellsApart hash keys' :=
  fun s s' hs hs' => h s s' (hsubset hs) (hsubset hs')

/-- Different keys have different hash keys. -/
theorem TellsApart.hashKey_inj (h : TellsApart hash keys) (hkey : key ∈ keys)
    (hother : other ∈ keys) : key.hashKey hash = other.hashKey hash ↔ key = other := by
  refine ⟨fun heq => ?_, fun heq => heq ▸ rfl⟩
  cases key with
  | int n =>
      cases other with
      | int m =>
          -- Nothing is lost when an integer is read without its sign.
          obtain ⟨n⟩ := n
          obtain ⟨m⟩ := m
          have hword : n = m := (HashKey.mk.inj heq).2
          rw [hword]
      | _ => cases heq
  | bool b =>
      cases other with
      | bool b' => cases b <;> cases b' <;> first | rfl | cases heq
      | _ => cases heq
  | str s =>
      cases other with
      | str s' => rw [h s s' hkey hother (HashKey.mk.inj heq).2]
      | _ => cases heq

/-- Inserting under the hash key of a key is putting in under the key. -/
theorem insertPair_hashed (h : TellsApart hash (key :: entries.map Prod.fst)) (v : Value) :
    insertPair (key.hashKey hash) ⟨key.toValue, v⟩ (hashed hash entries) =
      hashed hash (putEntry key v entries) := by
  induction entries with
  | nil => rfl
  | cons first rest ih =>
      -- Hash keys are compared where the model compares keys.
      have hfirst : first.1.hashKey hash = key.hashKey hash ↔ first.1 = key :=
        h.hashKey_inj (by simp) (by simp)
      have hrest := ih (h.mono (by simp))
      rw [putEntry, hashed, List.map_cons, insertPair]
      simp only [hfirst]
      split
      · rfl
      · exact congrArg _ hrest

/-- Pairs that are put one after the other under hash keys make the same
entries. -/
theorem foldl_insertPair_eq {pairs : List (Key × Value)}
    (h : TellsApart hash (pairs.map Prod.fst)) :
    pairs.foldl (fun entries pair => insertPair (pair.1.hashKey hash) ⟨pair.1.toValue, pair.2⟩
      entries) [] = hashed hash (dictOf pairs) := by
  induction pairs using List.reverseRecOn with
  | nil => rfl
  | append_singleton pairs last ih =>
      rw [List.foldl_append, ih (h.mono (by simp)), dictOf_append]
      -- The keys of the dict so far are keys of the pairs, so the hash tells them apart as well.
      refine insertPair_hashed (h.mono ?_) last.2
      intro k hk
      obtain rfl | hold := List.mem_cons.mp hk
      · simp
      · rw [keys_dictOf, List.mem_eraseDups] at hold
        simp [List.mem_map.mp hold]

/-- Looking up a hash key finds the pair of the key. -/
theorem lookup_hashed (h : TellsApart hash (key :: entries.map Prod.fst)) :
    (hashed hash entries).lookup (key.hashKey hash) =
      (valueUnder? key entries).map (HashPair.mk key.toValue) := by
  induction entries with
  | nil => rfl
  | cons first rest ih =>
      have hfirst : key.hashKey hash = first.1.hashKey hash ↔ key = first.1 :=
        h.hashKey_inj (by simp) (by simp)
      have hrest := ih (h.mono (by simp))
      rw [hashed, List.map_cons, List.lookup_cons, valueUnder?_cons]
      -- The first entry is found by both searches or by none.
      by_cases hkey : key = first.1
      · rw [beq_iff_eq.mpr (hfirst.mpr hkey), if_pos hkey, hkey]
        rfl
      · rw [beq_eq_false_iff_ne.mpr (mt hfirst.mp hkey), if_neg hkey]
        exact hrest

namespace Kept

variable {kept : List (HashKey × HashPair)}

/-- No hash key is there twice, whatever the hash is. -/
theorem nodup (h : Kept hash kept) : (kept.map Prod.fst).Nodup := by
  induction h with
  | empty => exact List.nodup_nil
  | insert _ _ ih => exact nodup_insertPair ih _ _

/-- Under each hash key there is a pair whose key has it. A pair that is
replaced takes its key with it, so this stays so even if two keys have the
same hash key. -/
theorem hashKey?_key (h : Kept hash kept) {entry : HashKey × HashPair} (hentry : entry ∈ kept) :
    entry.2.key.hashKey? hash = some entry.1 := by
  induction h with
  | empty => cases hentry
  | insert _ hk ih =>
      obtain rfl | hold := mem_insertPair hentry
      · exact hk
      · exact ih hold

/-- Pairs whose keys are keys can be kept. -/
theorem foldl (hash : String → UInt64) (pairs : List (Key × Value)) :
    Kept hash (pairs.foldl (fun kept pair => insertPair (pair.1.hashKey hash)
      ⟨pair.1.toValue, pair.2⟩ kept) []) := by
  induction pairs using List.reverseRecOn with
  | nil => exact .empty
  | append_singleton pairs last ih =>
      rw [List.foldl_append]
      exact ih.insert (Value.hashKey?_toValue hash last.1)

end Kept

end Hashed

end QuoteScript
