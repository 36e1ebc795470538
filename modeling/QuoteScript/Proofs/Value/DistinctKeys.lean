import QuoteScript.Proofs.Tree.Alike
import QuoteScript.Proofs.Value.Entries
import QuoteScript.Proofs.Value.Stored

/-!
# `QuoteScript.Proofs.Value.DistinctKeys`: dicts without a key twice

A list of entries may have a key twice, and then only the first entry
counts. A dict that has been made has no key twice, and neither has any
dict in it. Only of such values it can be said that they are equal to
themselves, since the entries of a dict are compared by looking them up,
and for the same reason their order does not matter.

* `Value.DistinctKeys`: no dict in the value has a key twice.
* `Value.same_self`: such a value is equal to itself.
* `dict_same_of_perm`: dicts with the same entries in another order.
-/

set_option autoImplicit false

namespace QuoteScript

mutual

/-- No dict in the value has a key twice. -/
def Value.DistinctKeys : Value → Prop
  | .array _ items => itemsDistinctKeys items
  | .dict _ entries => (entries.map Prod.fst).Nodup ∧ entriesDistinctKeys entries
  | .returned v => v.DistinctKeys
  | .int _ | .bool _ | .null | .str _ | .closure _ _ _ _ _ | .native _ | .quote _ _
  | .fault _ => True

/-- The same for a list of values. -/
def itemsDistinctKeys : List Value → Prop
  | [] => True
  | v :: rest => v.DistinctKeys ∧ itemsDistinctKeys rest

/-- The same for the values of a dict. -/
def entriesDistinctKeys : List (Key × Value) → Prop
  | [] => True
  | (_, v) :: rest => v.DistinctKeys ∧ entriesDistinctKeys rest

end

/-- Items with distinct keys, one by one. -/
theorem itemsDistinctKeys_iff {items : List Value} :
    itemsDistinctKeys items ↔ ∀ v ∈ items, v.DistinctKeys := by
  induction items with
  | nil => simp [itemsDistinctKeys]
  | cons v rest ih => simp [itemsDistinctKeys, ih]

/-- Entries with distinct keys inside, one by one. -/
theorem entriesDistinctKeys_iff {entries : List (Key × Value)} :
    entriesDistinctKeys entries ↔ ∀ entry ∈ entries, entry.2.DistinctKeys := by
  induction entries with
  | nil => simp [entriesDistinctKeys]
  | cons entry rest ih => simp [entriesDistinctKeys, ih]

namespace Value

/-- A key has no dict in it. -/
theorem distinctKeys_toValue (key : Key) : key.toValue.DistinctKeys := by
  cases key <;> exact trivial

/-- No dict that a value contains has a key twice. -/
theorem DistinctKeys.contains {v w : Value} (h : v.DistinctKeys) (hw : v.Contains w) :
    w.DistinctKeys := by
  induction hw with
  | self => exact h
  | item hv _ ih => exact ih (itemsDistinctKeys_iff.mp h _ hv)
  | key => exact distinctKeys_toValue _
  | entry hv _ ih => exact ih (entriesDistinctKeys_iff.mp h.2 _ hv)

end Value

/-! ### Equality -/

/-- A tree is the same as itself. -/
theorem Node.same_self (node : Node) : node.same node = true := by
  -- Equality of trees passes over tokens, so any relation of tokens will do.
  have h := (Alike.refl (R := fun _ _ _ => True) (fun _ _ => trivial) node).same
  cases node <;> exact h

mutual

/-- A value in which no dict has a key twice is equal to itself. -/
theorem Value.same_self : ∀ v : Value, v.DistinctKeys → v.same v = true
  | .array _ items, h => sameItems_self items h
  | .dict _ entries, h => by
      -- With distinct keys, each entry is the one that is found under its key.
      have hentries := entriesWithin_of_mem entries h.2 h.1 fun entry hentry => hentry
      rw [Value.same, hentries]
      simp
  | .returned v, h => v.same_self h
  | .int n, _ => by simp [Value.same]
  | .bool b, _ => by simp [Value.same, Value.identical]
  | .null, _ => by simp [Value.same, Value.identical]
  | .str s, _ => by simp [Value.same]
  | .closure kind a params body s, _ => by simp [Value.same, Value.identical]
  | .native native, _ => by simp [Value.same, Value.identical]
  | .quote a node, _ => node.same_self
  | .fault f, _ => by simp [Value.same]

/-- The same for items. -/
theorem sameItems_self : ∀ items : List Value, itemsDistinctKeys items →
    sameItems items items = true
  | [], _ => rfl
  | v :: rest, h => by rw [sameItems, v.same_self h.1, sameItems_self rest h.2]; rfl

/-- Entries that are all in a list without a key twice are found
there. -/
theorem entriesWithin_of_mem {all : List (Key × Value)} :
    ∀ entries : List (Key × Value), entriesDistinctKeys entries → (all.map Prod.fst).Nodup →
      (∀ entry ∈ entries, entry ∈ all) → entriesWithin all entries = true
  | [], _, _, _ => rfl
  | (key, v) :: rest, h, hall, hmem => by
      -- The key is in `all` once, so what is found under it is this entry.
      have hfirst := valueUnder?_of_mem hall (hmem (key, v) List.mem_cons_self)
      have hrest := entriesWithin_of_mem rest h.2 hall fun entry hentry =>
        hmem entry (List.mem_cons_of_mem _ hentry)
      rw [entriesWithin, hfirst, hrest]
      simp [v.same_self h.1]

end

/-- Dicts with the same entries are equal, in whatever order the entries
stand. -/
theorem dict_same_of_perm {entries entries' : List (Key × Value)} (h : entries'.Perm entries)
    (hkeys : (entries.map Prod.fst).Nodup) (hvalues : ∀ entry ∈ entries, entry.2.DistinctKeys)
    (handle handle' : Handle) :
    (Value.dict handle' entries').same (.dict handle entries) = true := by
  have hvalues' : entriesDistinctKeys entries' :=
    entriesDistinctKeys_iff.mpr fun entry hentry => hvalues entry (h.mem_iff.mp hentry)
  -- One inclusion is enough, since both lists have the same length.
  have hwithin := entriesWithin_of_mem entries' hvalues' hkeys fun entry => h.mem_iff.mp
  rw [Value.same, hwithin, h.length_eq]
  simp

end QuoteScript
