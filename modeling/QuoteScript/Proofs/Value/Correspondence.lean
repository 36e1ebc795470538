import Mathlib.Data.List.Forall2
import Mathlib.Order.Basic
import QuoteScript.Eval.Operators
import QuoteScript.Proofs.Tree.Telling
import QuoteScript.Value.Render

/-!
# `QuoteScript.Proofs.Value.Correspondence`: values of two heaps

Two evaluations of the same tree in different heaps do not answer with
the same values: scopes and handles are numbered as they are made, and
the trees that closures and quotes hold may differ in tokens. A
`Pairing` says which scopes and which handles of the two heaps
correspond, and two values correspond if they are built in the same way
from corresponding ones.

No program can tell corresponding values apart.

* `Value.Corresponds`: the relation. `Value.Corresponds.mono` says that
  it survives when more scopes and handles are paired.
* `Value.Corresponds.kind`, `isTruthy`, `key?`, `isUnwinding`, `render`:
  what programs and users see of a value.
* `Value.Corresponds.identical`: the same for identity, if no handle is
  paired twice.
-/

set_option autoImplicit false

namespace QuoteScript

/-- Which scopes and which handles of two heaps correspond. -/
structure Pairing where
  scope : ScopeId → ScopeId → Prop
  handle : Handle → Handle → Prop

/-- One pairing is below another one that pairs at least the same. -/
instance : Preorder Pairing where
  le ρ ρ' := (∀ s s', ρ.scope s s' → ρ'.scope s s') ∧ ∀ a a', ρ.handle a a' → ρ'.handle a a'
  le_refl _ := ⟨fun _ _ h => h, fun _ _ h => h⟩
  le_trans _ _ _ h h' :=
    ⟨fun s s' hs => h'.1 s s' (h.1 s s' hs), fun a a' ha => h'.2 a a' (h.2 a a' ha)⟩

/-- Related values under the same key or the same name. -/
inductive Keyed {κ : Type} (R : Value → Value → Prop) : κ × Value → κ × Value → Prop where
  | under {key : κ} {v v' : Value} (hv : R v v') : Keyed R (key, v) (key, v')

/-- Two values are built in the same way, up to corresponding scopes and
handles, and up to tokens. -/
inductive Value.Corresponds (ρ : Pairing) : Value → Value → Prop where
  | int {n : Int64} : Corresponds ρ (.int n) (.int n)
  | bool {b : Bool} : Corresponds ρ (.bool b) (.bool b)
  | null : Corresponds ρ .null .null
  | str {s : String} : Corresponds ρ (.str s) (.str s)
  | array {a a' : Handle} {items items' : List Value} (ha : ρ.handle a a') :
      List.Forall₂ (Corresponds ρ) items items' →
        Corresponds ρ (.array a items) (.array a' items')
  | dict {a a' : Handle} {entries entries' : List (Key × Value)} (ha : ρ.handle a a') :
      List.Forall₂ (Keyed (Corresponds ρ)) entries entries' →
        Corresponds ρ (.dict a entries) (.dict a' entries')
  | closure {kind : LambdaKind} {a a' : Handle} {params : List String} {body body' : Block}
      {s s' : ScopeId} (ha : ρ.handle a a') (hs : ρ.scope s s')
      (hbody : Alike .telling (.block body) (.block body')) :
      Corresponds ρ (.closure kind a params body s) (.closure kind a' params body' s')
  | native {native : Native} : Corresponds ρ (.native native) (.native native)
  | quote {a a' : Handle} {node node' : Node} (ha : ρ.handle a a')
      (hnode : Alike .telling node.part node'.part) :
      Corresponds ρ (.quote a node) (.quote a' node')
  | returned {v v' : Value} : Corresponds ρ v v' → Corresponds ρ (.returned v) (.returned v')
  | fault {f : Fault} : Corresponds ρ (.fault f) (.fault f)

variable {ρ ρ' : Pairing} {v v' w w' : Value}

/-- The scopes that the closures in a value were written in, at any
depth. -/
inductive Value.Captures : Value → ScopeId → Prop where
  | closure {kind : LambdaKind} {a : Handle} {params : List String} {body : Block} {s : ScopeId} :
      Captures (.closure kind a params body s) s
  | item {a : Handle} {items : List Value} {v : Value} {s : ScopeId} (hv : v ∈ items) :
      Captures v s → Captures (.array a items) s
  | entry {a : Handle} {entries : List (Key × Value)} {key : Key} {v : Value} {s : ScopeId}
      (hv : (key, v) ∈ entries) : Captures v s → Captures (.dict a entries) s
  | returned {v : Value} {s : ScopeId} : Captures v s → Captures (.returned v) s

/-- What is in a list is related to something in the other one. -/
theorem exists_of_mem_left {α β : Type} {R : α → β → Prop} {as : List α} {bs : List β}
    (h : List.Forall₂ R as bs) {a : α} (ha : a ∈ as) : ∃ b, R a b := by
  induction h with
  | nil => cases ha
  | cons hab _ ih =>
      rcases List.mem_cons.mp ha with rfl | ha
      · exact ⟨_, hab⟩
      · exact ih ha

/-! ### Other pairings -/

/-- The scopes in `inside` that are paired by `ρ` are paired by `ρ'`,
too, and so are all handles. -/
structure Pairing.LeOn (inside : ScopeId → Prop) (ρ ρ' : Pairing) : Prop where
  scope {s s' : ScopeId} : inside s → ρ.scope s s' → ρ'.scope s s'
  handle {a a' : Handle} : ρ.handle a a' → ρ'.handle a a'

/-- A larger pairing is larger on any scopes. -/
theorem Pairing.LeOn.of_le {inside : ScopeId → Prop} (h : ρ ≤ ρ') : LeOn inside ρ ρ' :=
  ⟨fun _ hs => h.1 _ _ hs, fun ha => h.2 _ _ ha⟩

/-- A pairing that is larger on some scopes is larger on any of them. -/
theorem Pairing.LeOn.anti {inside inside' : ScopeId → Prop} (h : LeOn inside ρ ρ')
    (hinside : ∀ s, inside' s → inside s) : LeOn inside' ρ ρ' :=
  ⟨fun hs hpaired => h.scope (hinside _ hs) hpaired, h.handle⟩

mutual

/-- Whether two values correspond depends on the scopes only that their
closures were written in. -/
theorem Value.corresponds_of_leOn :
    ∀ v v' : Value, ρ.LeOn v.Captures ρ' → Value.Corresponds ρ v v' → Value.Corresponds ρ' v v'
  | .int _, _, _, .int => .int
  | .bool _, _, _, .bool => .bool
  | .null, _, _, .null => .null
  | .str _, _, _, .str => .str
  | .array _ items, _, h, .array ha hitems =>
    .array (h.handle ha)
      (items_correspond_of_leOn items _ (fun _ hv => h.anti fun _ => .item hv) hitems)
  | .dict _ entries, _, h, .dict ha hentries =>
    .dict (h.handle ha)
      (entries_correspond_of_leOn entries _ (fun _ _ hv => h.anti fun _ => .entry hv) hentries)
  | .closure _ _ _ _ _, _, h, .closure ha hs hbody =>
    .closure (h.handle ha) (h.scope .closure hs) hbody
  | .native _, _, _, .native => .native
  | .quote _ _, _, h, .quote ha hnode => .quote (h.handle ha) hnode
  | .returned v, _, h, .returned hv =>
    .returned (v.corresponds_of_leOn _ (h.anti fun _ => .returned) hv)
  | .fault _, _, _, .fault => .fault

/-- The same for items. -/
theorem items_correspond_of_leOn :
    ∀ items items' : List Value, (∀ v ∈ items, ρ.LeOn v.Captures ρ') →
      List.Forall₂ (Value.Corresponds ρ) items items' →
        List.Forall₂ (Value.Corresponds ρ') items items'
  | [], _, _, .nil => .nil
  | v :: rest, _, h, .cons hv hrest =>
    .cons (v.corresponds_of_leOn _ (h v List.mem_cons_self) hv)
      (items_correspond_of_leOn rest _ (fun w hw => h w (List.mem_cons_of_mem _ hw)) hrest)

/-- The same for entries. -/
theorem entries_correspond_of_leOn :
    ∀ entries entries' : List (Key × Value),
      (∀ key v, (key, v) ∈ entries → ρ.LeOn v.Captures ρ') →
        List.Forall₂ (Keyed (Value.Corresponds ρ)) entries entries' →
          List.Forall₂ (Keyed (Value.Corresponds ρ')) entries entries'
  | [], _, _, .nil => .nil
  | (key, v) :: rest, _, h, .cons (.under hv) hrest =>
    .cons (.under (v.corresponds_of_leOn _ (h key v List.mem_cons_self) hv))
      (entries_correspond_of_leOn rest _ (fun k w hw => h k w (List.mem_cons_of_mem _ hw)) hrest)

end

/-! ### What is seen of a value -/

mutual

/-- Corresponding values read the same. -/
theorem Value.corresponds_render :
    ∀ v v' : Value, Value.Corresponds ρ v v' → v.render = v'.render
  | .array _ items, _, h => by
      cases h with
      | array _ hitems => rw [Value.render, Value.render, items_correspond_render items _ hitems]
  | .dict _ entries, _, h => by
      cases h with
      | dict _ hentries =>
          rw [Value.render, Value.render, entries_correspond_render entries _ hentries]
  | .closure _ _ _ body _, _, h => by
      cases h with
      | @closure _ _ _ _ _ body' _ _ _ _ hbody =>
          have hrender : body.render = body'.render :=
            @Alike.render _ (.block body) (.block body') hbody
          rw [Value.render, Value.render, hrender]
  | .quote _ _, _, h => by
      cases h with
      | quote _ hnode => rw [Value.render, Value.render, hnode.render]
  | .returned v, _, h => by
      cases h with
      | returned hv => rw [Value.render, Value.render, v.corresponds_render _ hv]
  | .int _, _, h | .bool _, _, h | .null, _, h | .str _, _, h | .native _, _, h
  | .fault _, _, h => by
      cases h
      rfl

/-- So do items. -/
theorem items_correspond_render :
    ∀ items items' : List Value, List.Forall₂ (Value.Corresponds ρ) items items' →
      renderItems items = renderItems items'
  | [], _, .nil => rfl
  | v :: rest, _, .cons hv hrest => by
      rw [renderItems, renderItems, v.corresponds_render _ hv, items_correspond_render rest _ hrest]

/-- So do entries, key by key. -/
theorem entries_correspond_render :
    ∀ entries entries' : List (Key × Value),
      List.Forall₂ (Keyed (Value.Corresponds ρ)) entries entries' →
        renderEntries entries = renderEntries entries'
  | [], _, .nil => rfl
  | (_, v) :: rest, _, .cons (.under hv) hrest => by
      rw [renderEntries, renderEntries, v.corresponds_render _ hv,
        entries_correspond_render rest _ hrest]

end

/-- No handle and no scope is paired twice. -/
structure Pairing.Injective (ρ : Pairing) : Prop where
  scope {s s' r r' : ScopeId} : ρ.scope s s' → ρ.scope r r' → (s = r ↔ s' = r')
  handle {a a' b b' : Handle} : ρ.handle a a' → ρ.handle b b' → (a = b ↔ a' = b')

namespace Value.Corresponds

/-- Only the scopes a value captures need to be paired. -/
theorem of_leOn (h : Corresponds ρ v v') (hle : ρ.LeOn v.Captures ρ') : Corresponds ρ' v v' :=
  v.corresponds_of_leOn v' hle h

/-- Values that correspond do so under a larger pairing. -/
theorem mono (h : Corresponds ρ v v') (hle : ρ ≤ ρ') : Corresponds ρ' v v' :=
  h.of_leOn (.of_le hle)

/-- The scopes that a value captures are paired. -/
theorem captures (h : Corresponds ρ v v') {s : ScopeId} (hs : v.Captures s) :
    ∃ s', ρ.scope s s' := by
  induction hs generalizing v' with
  -- Only closures have a scope; all other values have one somewhere inside.
  | closure =>
      cases h with
      | closure _ hs _ => exact ⟨_, hs⟩
  | item hv _ ih =>
      cases h with
      | array _ hitems =>
          obtain ⟨v', hv'⟩ := exists_of_mem_left hitems hv
          exact ih hv'
  | entry hv _ ih =>
      cases h with
      | dict _ hentries =>
          obtain ⟨_, hentry⟩ := exists_of_mem_left hentries hv
          cases hentry with
          | under hv' => exact ih hv'
  | returned _ ih =>
      cases h with
      | returned hv => exact ih hv

/-- They are shown by the same text. -/
theorem render (h : Corresponds ρ v v') : v.render = v'.render :=
  v.corresponds_render v' h

/-- They are of the same kind. -/
theorem kind (h : Corresponds ρ v v') : v.kind = v'.kind := by
  cases h with
  | @closure kind => cases kind <;> rfl
  | _ => rfl

/-- Both are truthy, or neither is. -/
theorem isTruthy (h : Corresponds ρ v v') : v.isTruthy = v'.isTruthy := by
  cases h <;> rfl

/-- They make the same key, or none. -/
theorem key? (h : Corresponds ρ v v') : v.key? = v'.key? := by
  cases h <;> rfl

/-- Both unwind, or neither does. -/
theorem isUnwinding (h : Corresponds ρ v v') : v.isUnwinding = v'.isUnwinding := by
  cases h <;> rfl

/-- What a pending return holds corresponds to what the other one does. -/
theorem unwrapReturn (h : Corresponds ρ v v') : Corresponds ρ v.unwrapReturn v'.unwrapReturn := by
  cases h with
  | returned h => exact h
  | int => exact .int
  | bool => exact .bool
  | null => exact .null
  | str => exact .str
  | array ha hitems => exact .array ha hitems
  | dict ha hentries => exact .dict ha hentries
  | closure ha hs hbody => exact .closure ha hs hbody
  | native => exact .native
  | quote ha hnode => exact .quote ha hnode
  | fault => exact .fault

/-- Corresponding values are identical to corresponding ones. -/
theorem identical (hρ : ρ.Injective) (hv : Corresponds ρ v v') (hw : Corresponds ρ w w') :
    v.identical w = v'.identical w' := by
  -- A pairing relates each handle to one, so equal handles have equal partners and back.
  have hhandle {a a' b b' : Handle} (ha : ρ.handle a a') (hb : ρ.handle b b') :
      (a == b) = (a' == b') := by
    rw [Bool.eq_iff_iff, beq_iff_eq, beq_iff_eq]
    exact hρ.handle ha hb
  cases hv with
  | array ha _ =>
      cases hw with
      | array hb _ => exact hhandle ha hb
      | _ => rfl
  | dict ha _ =>
      cases hw with
      | dict hb _ => exact hhandle ha hb
      | _ => rfl
  | closure ha _ _ =>
      cases hw with
      | closure hb _ _ => exact congrArg (_ && ·) (hhandle ha hb)
      | _ => rfl
  | quote ha _ =>
      cases hw with
      | quote hb _ => exact hhandle ha hb
      | _ => rfl
  | _ => cases hw <;> rfl

end Value.Corresponds

/-! ### Lists of values -/

section Lists

/-- Bindings and entries still correspond if all of their values do. -/
theorem forall₂_keyed_of_leOn {κ : Type} {bindings bindings' : List (κ × Value)}
    (h : List.Forall₂ (Keyed (Value.Corresponds ρ)) bindings bindings')
    (hle : ∀ key v, (key, v) ∈ bindings → ρ.LeOn v.Captures ρ') :
    List.Forall₂ (Keyed (Value.Corresponds ρ')) bindings bindings' := by
  induction h with
  | nil => exact .nil
  | cons hbinding _ ih =>
      obtain ⟨hv⟩ := hbinding
      have hrest := ih fun key v hmem => hle key v (List.mem_cons_of_mem _ hmem)
      exact .cons (.under (hv.of_leOn (hle _ _ List.mem_cons_self))) hrest

/-- What is there by default corresponds, too. -/
theorem corresponds_getD {o o' : Option Value} (h : Option.Rel (Value.Corresponds ρ) o o') :
    Value.Corresponds ρ (o.getD .null) (o'.getD .null) := by
  cases h with
  | some hv => exact hv
  | none => exact .null

/-- The same place holds items that correspond, or lies outside of both
lists. -/
theorem rel_getElem? {items items' : List Value}
    (h : List.Forall₂ (Value.Corresponds ρ) items items') (n : Nat) :
    Option.Rel (Value.Corresponds ρ) items[n]? items'[n]? := by
  induction h generalizing n with
  | nil => exact .none
  | cons hv _ ih =>
      cases n with
      | zero => exact .some hv
      | succ n => exact ih n

variable {κ : Type} {R : Value → Value → Prop}

/-- The first entry with a given key, in both lists. -/
theorem rel_lookup {entries entries' : List (Key × Value)}
    (h : List.Forall₂ (Keyed R) entries entries') (key : Key) :
    Option.Rel R (valueUnder? key entries) (valueUnder? key entries') := by
  induction h with
  | nil => exact .none
  | cons hentry _ ih =>
      obtain ⟨hv⟩ := hentry
      rw [valueUnder?, valueUnder?, List.lookup_cons, List.lookup_cons]
      split
      · exact .some hv
      · exact ih

/-- Entries that are put in under the same key end up in the same place. -/
theorem forall₂_putEntry {entries entries' : List (Key × Value)}
    (h : List.Forall₂ (Keyed R) entries entries') (key : Key) (hv : R v v') :
    List.Forall₂ (Keyed R) (putEntry key v entries) (putEntry key v' entries') := by
  induction h with
  | nil => exact .cons (.under hv) .nil
  | cons hentry hrest ih =>
      obtain ⟨hw⟩ := hentry
      rw [putEntry, putEntry]
      split
      · exact .cons (.under hv) hrest
      · exact .cons (.under hw) ih

end Lists

end QuoteScript
