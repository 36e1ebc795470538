import Mathlib.Logic.Embedding.Basic
import QuoteScript.Eval.Operators
import QuoteScript.Proofs.Value.Correspondence
import QuoteScript.Proofs.Value.Entries

/-!
# `QuoteScript.Proofs.Value.Renaming`: values under other numbers

Scopes and handles are numbers, and the numbers say only in which order
things were made. A `Renaming` gives every scope and every handle
another number, and no number twice. The value is changed with them, and
stays the same otherwise: all of its trees keep their tokens.

No operation can tell a value from the renamed one.

* `Value.rename`: the value under the other numbers.
* `Value.kind_rename`, `isTruthy_rename`, `key?_rename`,
  `isUnwinding_rename`, `identical_rename`: what programs see of it.
* `Value.Plain`: the values without any numbers in them, with the
  operations that answer with one.
* `rename_applyIndex`, `rename_putEntry`: the operations that find a
  value in another one, or put it there.
-/

set_option autoImplicit false

namespace QuoteScript

/-- Other numbers for scopes and handles. -/
structure Renaming where
  scope : ScopeId ↪ ScopeId
  handle : Handle ↪ Handle

/-- The same numbers. -/
def Renaming.id : Renaming :=
  ⟨.refl ScopeId, .refl Handle⟩

mutual

/-- A value under other numbers. -/
def Value.rename (σ : Renaming) : Value → Value
  | .array a items => .array (σ.handle a) (renameItems σ items)
  | .dict a entries => .dict (σ.handle a) (renameEntries σ entries)
  | .closure kind a params body s => .closure kind (σ.handle a) params body (σ.scope s)
  | .quote a node => .quote (σ.handle a) node
  | .returned v => .returned (v.rename σ)
  | .int n => .int n
  | .bool b => .bool b
  | .null => .null
  | .str s => .str s
  | .native native => .native native
  | .fault f => .fault f

/-- Values under other numbers. -/
def renameItems (σ : Renaming) : List Value → List Value
  | [] => []
  | v :: rest => v.rename σ :: renameItems σ rest

/-- The entries of a dict under other numbers. Keys have none. -/
def renameEntries (σ : Renaming) : List (Key × Value) → List (Key × Value)
  | [] => []
  | (key, v) :: rest => (key, v.rename σ) :: renameEntries σ rest

end

variable {σ : Renaming}

/-- Items are renamed one by one. -/
theorem renameItems_eq_map (σ : Renaming) (items : List Value) :
    renameItems σ items = items.map (Value.rename σ) := by
  induction items with
  | nil => rfl
  | cons v rest ih => rw [renameItems, List.map_cons, ih]

/-- What stands under the same key or the same name, under other
numbers. -/
def renameUnder {κ : Type} (σ : Renaming) (entry : κ × Value) : κ × Value :=
  (entry.1, entry.2.rename σ)

/-- Entries are renamed one by one, under the keys they have. -/
theorem renameEntries_eq_map (σ : Renaming) (entries : List (Key × Value)) :
    renameEntries σ entries = entries.map (renameUnder σ) := by
  induction entries with
  | nil => rfl
  | cons entry rest ih => rw [renameEntries, List.map_cons, ih, renameUnder]

mutual

/-- Renaming nothing changes no value. -/
theorem Value.rename_id : ∀ v : Value, v.rename .id = v
  | .array _ items => congrArg (Value.array _) (renameItems_id items)
  | .dict _ entries => congrArg (Value.dict _) (renameEntries_id entries)
  | .returned v => congrArg Value.returned v.rename_id
  | .closure _ _ _ _ _ | .quote _ _ | .int _ | .bool _ | .null | .str _ | .native _ | .fault _ =>
    rfl

/-- Nor a list of them. -/
theorem renameItems_id : ∀ items : List Value, renameItems .id items = items
  | [] => rfl
  | v :: rest => by rw [renameItems, v.rename_id, renameItems_id rest]

/-- Nor entries. -/
theorem renameEntries_id : ∀ entries : List (Key × Value), renameEntries .id entries = entries
  | [] => rfl
  | (key, v) :: rest => by rw [renameEntries, v.rename_id, renameEntries_id rest]

end

/-- Nor a value that may be there. -/
theorem map_rename_id (o : Option Value) : o.map (Value.rename .id) = o := by
  rw [show Value.rename .id = id from funext Value.rename_id, Option.map_id, id]

/-! ### What is seen of a value -/

namespace Value

/-- A renaming keeps the kind of a value. -/
@[simp] theorem kind_rename (v : Value) : (v.rename σ).kind = v.kind := by
  cases v with
  | closure kind => cases kind <;> rfl
  | _ => rfl

/-- It keeps whether the value is truthy. -/
@[simp] theorem isTruthy_rename (v : Value) : (v.rename σ).isTruthy = v.isTruthy := by
  cases v <;> rfl

/-- It keeps the key a value makes, since no key has a handle. -/
@[simp] theorem key?_rename (v : Value) : (v.rename σ).key? = v.key? := by
  cases v <;> rfl

/-- It keeps whether the value unwinds. -/
@[simp] theorem isUnwinding_rename (v : Value) : (v.rename σ).isUnwinding = v.isUnwinding := by
  cases v <;> rfl

/-- A pending return is renamed inside. -/
@[simp] theorem unwrapReturn_rename (v : Value) :
    (v.rename σ).unwrapReturn = v.unwrapReturn.rename σ := by
  cases v <;> rfl

/-- Renamed values are identical if and only if the values are: no
number is given twice. -/
@[simp] theorem identical_rename (v w : Value) :
    (v.rename σ).identical (w.rename σ) = v.identical w := by
  have hhandle (a b : Handle) : (σ.handle a == σ.handle b) = (a == b) := by
    rw [Bool.eq_iff_iff, beq_iff_eq, beq_iff_eq]
    exact σ.handle.injective.eq_iff
  cases v <;> cases w <;> simp [rename, identical, hhandle]

/-- The scopes that a returned value captures are those of the pending
return. -/
theorem Captures.of_unwrapReturn {v : Value} {s : ScopeId} (h : v.unwrapReturn.Captures s) :
    v.Captures s := by
  cases v with
  | returned v => exact .returned h
  | _ => exact h

/-- Values without any numbers in them. -/
inductive Plain : Value → Prop where
  | int (n : Int64) : Plain (.int n)
  | bool (b : Bool) : Plain (.bool b)
  | null : Plain .null
  | str (s : String) : Plain (.str s)
  | native (native : Native) : Plain (.native native)
  | fault (f : Fault) : Plain (.fault f)

namespace Plain

variable {v : Value}

/-- There is nothing to rename in a plain value. -/
theorem rename (h : v.Plain) : v.rename σ = v := by
  cases h <;> rfl

/-- A plain value captures no scope. -/
theorem not_captures (h : v.Plain) (s : ScopeId) : ¬v.Captures s := by
  cases h <;> exact nofun

end Plain

end Value

/-! ### Operators -/

/-- Prefix operators answer with plain values. -/
theorem applyUnary_plain (op : UnaryOp) (v : Value) : (applyUnary op v).Plain := by
  cases op with
  | not => exact .bool _
  | negate =>
      cases v with
      | int n => exact .int _
      | _ => exact .fault _

/-- They cannot tell a value from the renamed one. -/
theorem applyUnary_rename (op : UnaryOp) (v : Value) :
    applyUnary op (v.rename σ) = applyUnary op v := by
  cases op with
  | not => simp [applyUnary]
  | negate =>
      cases v with
      | closure kind => cases kind <;> rfl
      | _ => rfl

/-- Arithmetic answers with a plain value: division by zero is a fault,
and there is no defect. -/
theorem applyInts_plain (op : BinaryOp) (a b : Int64) :
    ∃ v : Value, v.Plain ∧ applyInts op a b = pure v := by
  cases op with
  | add | subtract | multiply => exact ⟨_, .int _, rfl⟩
  | less | greater | equal | notEqual => exact ⟨_, .bool _, rfl⟩
  | divide =>
      by_cases hb : b = 0
      · exact ⟨_, .fault _, by rw [applyInts, if_pos hb]⟩
      · exact ⟨_, .int (a / b), by rw [applyInts, if_neg hb, quotient, if_neg hb]; rfl⟩

/-- Operators on strings answer with plain values. -/
theorem applyStrings_plain (op : BinaryOp) (a b : String) : (applyStrings op a b).Plain := by
  cases op with
  | add => exact .str _
  | _ => exact .fault _

/-- So do comparisons of any two values. -/
theorem applyIdentity_plain (op : BinaryOp) (v w : Value) : (applyIdentity op v w).Plain := by
  cases op with
  | equal | notEqual => exact .bool _
  | _ => exact .fault _

/-- An operator between two operands answers with a value without
numbers. -/
theorem applyBinary_plain (op : BinaryOp) (v w : Value) :
    ∃ u : Value, u.Plain ∧ applyBinary op v w = pure u := by
  unfold applyBinary
  split
  · exact applyInts_plain op _ _
  · exact ⟨_, applyStrings_plain op _ _, rfl⟩
  · split
    · exact ⟨_, applyIdentity_plain op _ _, rfl⟩
    · exact ⟨_, .fault _, rfl⟩

/-- Handles are equal if and only if the renamed ones are, so comparisons
answer the same. -/
theorem applyIdentity_rename (op : BinaryOp) (v w : Value) :
    applyIdentity op (v.rename σ) (w.rename σ) = applyIdentity op v w := by
  cases op <;> simp [applyIdentity]

/-- No infix operator can tell its operands from the renamed ones. -/
theorem applyBinary_rename (op : BinaryOp) (v w : Value) :
    applyBinary op (v.rename σ) (w.rename σ) = applyBinary op v w := by
  rw [applyBinary.eq_def op v w]
  split
  · rfl
  · rfl
  · next hints hstrings =>
      -- Neither are the renamed operands two integers or two strings.
      have hints' : ∀ n m, v.rename σ = .int n → w.rename σ = .int m → False := by
        intro n m hv hw
        cases v <;> cases hv
        cases w <;> cases hw
        exact hints n m rfl rfl
      have hstrings' : ∀ a b, v.rename σ = .str a → w.rename σ = .str b → False := by
        intro a b hv hw
        cases v <;> cases hv
        cases w <;> cases hw
        exact hstrings a b rfl rfl
      rw [applyBinary.eq_3 op _ _ hints' hstrings', applyIdentity_rename]
      simp only [Value.kind_rename]

/-! ### Indexing -/

/-- A missing value counts as null, and null is plain. -/
theorem getD_rename (o : Option Value) :
    (o.map (Value.rename σ)).getD .null = (o.getD .null).rename σ := by
  cases o <;> rfl

/-- An item of a renamed array is the renamed item. -/
theorem itemAt_rename (items : List Value) (i : Int64) :
    itemAt (items.map (Value.rename σ)) i = (itemAt items i).rename σ := by
  unfold itemAt
  split
  · rfl
  · rw [List.getElem?_map, getD_rename]

/-- Keys are not renamed, so the same entry is found. -/
theorem valueUnder?_rename (key : Key) (entries : List (Key × Value)) :
    valueUnder? key (entries.map (renameUnder σ)) =
      (valueUnder? key entries).map (Value.rename σ) := by
  induction entries with
  | nil => rfl
  | cons entry rest ih =>
      obtain ⟨k, v⟩ := entry
      rw [List.map_cons, renameUnder, valueUnder?, valueUnder?, List.lookup_cons, List.lookup_cons]
      cases key == k with
      | true => rfl
      | false => exact ih

/-- An entry of a renamed dict is the renamed entry. -/
theorem valueAt_rename (entries : List (Key × Value)) (index : Value) :
    valueAt (entries.map (renameUnder σ)) (index.rename σ) =
      (valueAt entries index).rename σ := by
  unfold valueAt
  rw [Value.key?_rename, Value.kind_rename]
  split
  · rw [valueUnder?_rename, getD_rename]
  · rfl

/-- Indexing a renamed value answers with the renamed part. -/
theorem applyIndex_rename (v index : Value) :
    applyIndex (v.rename σ) (index.rename σ) = (applyIndex v index).rename σ := by
  cases v with
  | array a items =>
      rw [Value.rename, renameItems_eq_map]
      cases index with
      | int i => exact itemAt_rename items i
      | closure kind => cases kind <;> rfl
      | _ => rfl
  | dict a entries =>
      rw [Value.rename, renameEntries_eq_map]
      -- The index makes the same key on both sides.
      exact valueAt_rename entries index
  | closure kind => cases kind <;> rfl
  | _ => rfl

/-- What an index finds in a value was in the value. -/
theorem captures_of_applyIndex {v index : Value} {s : ScopeId}
    (h : (applyIndex v index).Captures s) : v.Captures s := by
  -- Only a part of the value can capture anything; null and faults do not.
  have hnull : ¬(Value.null).Captures s := Value.Plain.null.not_captures s
  have hfault (f : Fault) : ¬(Value.fault f).Captures s := (Value.Plain.fault f).not_captures s
  cases v with
  | array a items =>
      cases index with
      | int i =>
          simp only [applyIndex, itemAt] at h
          split at h
          · exact absurd h hnull
          · cases hitem : items[i.toInt.toNat]? with
            | none =>
                rw [hitem] at h
                exact absurd h hnull
            | some w =>
                rw [hitem] at h
                exact .item (List.mem_of_getElem? hitem) h
      | _ => exact absurd h (hfault _)
  | dict a entries =>
      simp only [applyIndex, valueAt] at h
      split at h
      · next key _ =>
          cases hentry : valueUnder? key entries with
          | none =>
              rw [hentry] at h
              exact absurd h hnull
          | some w =>
              rw [hentry] at h
              exact .entry (mem_of_valueUnder? hentry) h
      · exact absurd h (hfault _)
  | _ => exact absurd h (hfault _)

/-! ### Entries -/

/-- Putting an entry in goes together with a renaming. -/
theorem putEntry_rename (key : Key) (v : Value) (entries : List (Key × Value)) :
    putEntry key (v.rename σ) (entries.map (renameUnder σ)) =
      (putEntry key v entries).map (renameUnder σ) := by
  induction entries with
  | nil => rfl
  | cons entry rest ih =>
      have hkey : (renameUnder σ entry).1 = entry.1 := rfl
      rw [List.map_cons, putEntry, putEntry, hkey]
      split
      · rfl
      · rw [List.map_cons, ih]

end QuoteScript
