import QuoteScript.Proofs.Session.Identity
import QuoteScript.Proofs.Tree.Alike

/-!
# `QuoteScript.Proofs.Value.Equality`: equality of values is lawful

Equality is computed by cases: items are compared one by one, the entries
of a dict are looked up in the other one, and what is in no case is left
to identity. What comes of it can be said without looking anything up.
Two values are equal if one can be rearranged into the other: the entries
of its dicts can be put in another order, its trees can carry other
tokens, and whatever a run has made can be made again, anywhere in the
value. So equality ignores these things and nothing else.

The hard direction is that of dicts. A dict is equal to another one of
the same size if each of its entries has an equal one there. Since no key
stands in it twice, the entries that are found there are as many as there
are, so they are all of them, in some order.

* `Value.EqualAt`: equality at the top of two values.
* `Value.same_trans`: equality can be chained.
* `Value.Rearranged`: rearranging a value, one step after the other.
* `Value.same_iff_rearranged`: equality is rearranging.
* `LawfulIn`: what is known of all values that a session has.
* `equality_is_lawful`: all of it.
-/

set_option autoImplicit false

namespace QuoteScript

/-! ### Trees -/

/-- Nodes are the same up to tokens if nothing is asked of their tokens. -/
theorem Node.same_iff_alike {node node' : Node} :
    node.same node' = true ↔ Alike (fun _ _ _ => True) node.part node'.part := by
  have hpart : node.same node' = node.part.same node'.part := by
    cases node <;> cases node' <;> rfl
  rw [hpart]
  exact ⟨Alike.of_same (fun _ _ _ (_ : True) (_ : True) => trivial)
    (Alike.refl (fun _ _ => trivial) node) (Alike.refl (fun _ _ => trivial) node'), Alike.same⟩

/-- Trees that are the same as a third one are the same. -/
theorem Node.same_trans {node node' node'' : Node} (h : node.same node' = true)
    (h' : node'.same node'' = true) : node.same node'' = true :=
  same_iff_alike.mpr ((same_iff_alike.mp h).trans (fun _ _ _ _ _ _ => trivial)
    (same_iff_alike.mp h'))

/-! ### Values, level by level -/

/-- A property of values that is handed on from the values in an array, a
dict or a pending return holds for every value. -/
@[elab_as_elim]
theorem Value.induction {motive : Value → Prop} (int : ∀ n, motive (.int n))
    (bool : ∀ b, motive (.bool b)) (null : motive .null) (str : ∀ s, motive (.str s))
    (array : ∀ handle items, (∀ v ∈ items, motive v) → motive (.array handle items))
    (dict : ∀ handle entries, (∀ entry ∈ entries, motive entry.2) → motive (.dict handle entries))
    (closure : ∀ kind handle params body scope, motive (.closure kind handle params body scope))
    (native : ∀ native, motive (.native native))
    (quote : ∀ handle node, motive (.quote handle node))
    (returned : ∀ v, motive v → motive (.returned v)) (fault : ∀ f, motive (.fault f)) (v : Value) :
    motive v :=
  @Value.rec motive (fun items => ∀ v ∈ items, motive v)
    (fun entries => ∀ entry ∈ entries, motive entry.2) (fun entry => motive entry.2)
    int bool null str array dict closure native quote returned fault
    (List.forall_mem_nil _) (fun _ _ hv hrest => List.forall_mem_cons.mpr ⟨hv, hrest⟩)
    (List.forall_mem_nil _) (fun _ _ hv hrest => List.forall_mem_cons.mpr ⟨hv, hrest⟩)
    (fun _ _ hv => hv) v

/-- What makes two values equal, given what is equal inside. -/
inductive Value.EqualAt : Value → Value → Prop where
  | int {n : Int64} : EqualAt (.int n) (.int n)
  | bool {b : Bool} : EqualAt (.bool b) (.bool b)
  | null : EqualAt .null .null
  | str {s : String} : EqualAt (.str s) (.str s)
  | array {a a' : Handle} {items items' : List Value}
      (h : List.Forall₂ (fun v w => v.same w = true) items items') :
      EqualAt (.array a items) (.array a' items')
  | dict {a a' : Handle} {entries entries' : List (Key × Value)}
      (hlength : entries.length = entries'.length)
      (h : ∀ entry ∈ entries, ∃ w, valueUnder? entry.1 entries' = some w ∧ entry.2.same w = true) :
      EqualAt (.dict a entries) (.dict a' entries')
  | closure {kind : LambdaKind} {a : Handle} {params params' : List String} {body body' : Block}
      {s s' : ScopeId} : EqualAt (.closure kind a params body s) (.closure kind a params' body' s')
  | native {native : Native} : EqualAt (.native native) (.native native)
  | quote {a a' : Handle} {node node' : Node} (h : node.same node' = true) :
      EqualAt (.quote a node) (.quote a' node')
  | returned {v v' : Value} (h : v.same v' = true) : EqualAt (.returned v) (.returned v')
  | fault {f f' : Fault} (h : f.message = f'.message) : EqualAt (.fault f) (.fault f')

/-- Items are the same one by one, and as many. -/
theorem sameItems_iff {items items' : List Value} :
    sameItems items items' = true ↔ List.Forall₂ (fun v w => v.same w = true) items items' := by
  induction items generalizing items' with
  | nil => cases items' <;> simp [sameItems]
  | cons v rest ih => cases items' <;> simp [sameItems, ih]

/-- Each entry has one under its key on the other side, with the same
value. -/
theorem entriesWithin_iff {entries entries' : List (Key × Value)} :
    entriesWithin entries' entries = true ↔
      ∀ entry ∈ entries, ∃ w, valueUnder? entry.1 entries' = some w ∧ entry.2.same w = true := by
  induction entries with
  | nil => simp [entriesWithin]
  | cons entry rest ih =>
      rw [entriesWithin, Bool.and_eq_true, ih, List.forall_mem_cons]
      cases valueUnder? entry.1 entries' <;> simp

/-- Equality of values, one level opened. -/
theorem Value.same_iff {v w : Value} : v.same w = true ↔ v.EqualAt w := by
  constructor
  · intro h
    -- Values of two kinds are not equal, which leaves one case for each constructor.
    cases v <;> cases w <;> simp [Value.same, Value.identical] at h
    case int.int => exact h ▸ .int
    case bool.bool => exact h ▸ .bool
    case null.null => exact .null
    case str.str => exact h ▸ .str
    case array.array => exact .array (sameItems_iff.mp h)
    case dict.dict => exact .dict h.1 (entriesWithin_iff.mp h.2)
    case closure.closure =>
      obtain ⟨rfl, rfl⟩ := h
      exact .closure
    case native.native => exact h ▸ .native
    case quote.quote => exact .quote h
    case returned.returned => exact .returned h
    case fault.fault => exact .fault h
  · intro h
    cases h with
    | array h => exact sameItems_iff.mpr h
    | dict hlength h => simp [Value.same, hlength, entriesWithin_iff.mpr h]
    | quote h | returned h => exact h
    | fault h => simp [Value.same, h]
    | _ => simp [Value.same, Value.identical]

/-! ### Chains of equal values -/

/-- Equality can be chained. -/
theorem Value.same_trans {u v w : Value} (huv : u.same v = true) (hvw : v.same w = true) :
    u.same w = true := by
  induction u using Value.induction generalizing v w with
  | array a items ih =>
      cases same_iff.mp huv with
      | array hitems =>
          cases same_iff.mp hvw with
          | array hitems' =>
              obtain ⟨hlength, hget⟩ := List.forall₂_iff_get.mp hitems
              obtain ⟨hlength', hget'⟩ := List.forall₂_iff_get.mp hitems'
              refine same_iff.mpr (.array (List.forall₂_iff_get.mpr
                ⟨hlength.trans hlength', fun i hi hi' => ?_⟩))
              exact ih _ (List.get_mem _ _) (hget i hi (hlength ▸ hi)) (hget' i (hlength ▸ hi) hi')
  | dict a entries ih =>
      cases same_iff.mp huv with
      | dict hlength hfound =>
          cases same_iff.mp hvw with
          | dict hlength' hfound' =>
              refine same_iff.mpr (.dict (hlength.trans hlength') fun entry hentry => ?_)
              obtain ⟨v, hv, hsame⟩ := hfound entry hentry
              obtain ⟨w, hw, hsame'⟩ := hfound' _ (mem_of_valueUnder? hv)
              exact ⟨w, hw, ih entry hentry hsame hsame'⟩
  | closure kind a params body s =>
      cases same_iff.mp huv
      cases same_iff.mp hvw
      exact same_iff.mpr .closure
  | quote a node =>
      cases same_iff.mp huv with
      | quote hnode =>
          cases same_iff.mp hvw with
          | quote hnode' => exact same_iff.mpr (.quote (node.same_trans hnode hnode'))
  | returned u ih =>
      cases same_iff.mp huv with
      | returned hu =>
          cases same_iff.mp hvw with
          | returned hv => exact same_iff.mpr (.returned (ih hu hv))
  | fault f =>
      cases same_iff.mp huv with
      | fault hf =>
          cases same_iff.mp hvw with
          | fault hf' => exact same_iff.mpr (.fault (hf.trans hf'))
  | _ =>
      -- These values are equal to nothing but themselves.
      cases same_iff.mp huv
      exact hvw

/-! ### Rearranging a value -/

/-- One value is made of another one by rearranging it: what a run has
made is made again, the entries of a dict are put in another order, and
trees get other tokens, anywhere in the value, and any number of times.
Closures are told apart by their handles alone, and faults by what they
read as. -/
inductive Value.Rearranged : Value → Value → Prop where
  | refl (v : Value) : Rearranged v v
  | trans {u v w : Value} : Rearranged u v → Rearranged v w → Rearranged u w
  | array {a a' : Handle} {items : List Value} : Rearranged (.array a items) (.array a' items)
  | order {a a' : Handle} {entries entries' : List (Key × Value)} (h : entries.Perm entries') :
      Rearranged (.dict a entries) (.dict a' entries')
  | tokens {a a' : Handle} {node node' : Node}
      (h : Alike (fun _ _ _ => True) node.part node'.part) :
      Rearranged (.quote a node) (.quote a' node')
  | closure {kind : LambdaKind} {a : Handle} {params params' : List String} {body body' : Block}
      {s s' : ScopeId} :
      Rearranged (.closure kind a params body s) (.closure kind a params' body' s')
  | wording {f f' : Fault} (h : f.message = f'.message) : Rearranged (.fault f) (.fault f')
  -- Anywhere in a value.
  | item {a : Handle} {before behind : List Value} {v w : Value} : Rearranged v w →
      Rearranged (.array a (before ++ v :: behind)) (.array a (before ++ w :: behind))
  | entry {a : Handle} {before behind : List (Key × Value)} {key : Key} {v w : Value} :
      Rearranged v w →
        Rearranged (.dict a (before ++ (key, v) :: behind)) (.dict a (before ++ (key, w) :: behind))
  | returned {v w : Value} : Rearranged v w → Rearranged (.returned v) (.returned w)

namespace Value.Rearranged

variable {v w : Value}

/-- A value can be rearranged back. -/
theorem symm (h : v.Rearranged w) : w.Rearranged v := by
  induction h with
  | refl v => exact .refl v
  | trans _ _ ihuv ihvw => exact ihvw.trans ihuv
  | array => exact .array
  | order h => exact .order h.symm
  | tokens h => exact .tokens (h.symm fun _ _ _ _ => trivial)
  | closure => exact .closure
  | wording h => exact .wording h.symm
  | item _ ih => exact .item ih
  | entry _ ih => exact .entry ih
  | returned _ ih => exact .returned ih

/-- No key comes to stand twice in a dict. -/
theorem distinctKeys (h : v.Rearranged w) (hv : v.DistinctKeys) : w.DistinctKeys := by
  induction h with
  | refl _ | array => exact hv
  | trans _ _ ihuv ihvw => exact ihvw (ihuv hv)
  -- Another order of entries has the same keys.
  | order h =>
      have hvalues := entriesDistinctKeys_iff.mp hv.2
      exact ⟨(h.map Prod.fst).nodup_iff.mp hv.1,
        entriesDistinctKeys_iff.mpr fun entry hentry => hvalues entry (h.mem_iff.mpr hentry)⟩
  | tokens _ | closure | wording _ => trivial
  | item _ ih =>
      have hitems := itemsDistinctKeys_iff.mp hv
      refine itemsDistinctKeys_iff.mpr ?_
      rw [List.forall_mem_append, List.forall_mem_cons] at hitems ⊢
      exact ⟨hitems.1, ih hitems.2.1, hitems.2.2⟩
  | entry _ ih =>
      have hentries := entriesDistinctKeys_iff.mp hv.2
      refine ⟨by simpa using hv.1, entriesDistinctKeys_iff.mpr ?_⟩
      rw [List.forall_mem_append, List.forall_mem_cons] at hentries ⊢
      exact ⟨hentries.1, ih hentries.2.1, hentries.2.2⟩
  | returned _ ih => exact ih hv

/-- Items can be rearranged one after the other. -/
theorem items {items items' : List Value} (h : List.Forall₂ Rearranged items items') (a : Handle)
    (done : List Value) :
    (Value.array a (done ++ items)).Rearranged (.array a (done ++ items')) := by
  induction h generalizing done with
  | nil => exact .refl _
  | @cons _ w _ _ hv _ ih =>
      have hrest := ih (done ++ [w])
      rw [List.append_assoc, List.append_assoc] at hrest
      exact (item hv).trans hrest

/-- The values in a dict can be rearranged one after the other. -/
theorem entries {entries : List (Key × Value)} {f : Key × Value → Value}
    (h : ∀ entry ∈ entries, entry.2.Rearranged (f entry)) (a : Handle)
    (done : List (Key × Value)) : (Value.dict a (done ++ entries)).Rearranged
      (.dict a (done ++ entries.map fun entry => (entry.1, f entry))) := by
  induction entries generalizing done with
  | nil => exact .refl _
  | cons first rest ih =>
      obtain ⟨hfirst, hrest⟩ := List.forall_mem_cons.mp h
      have hrest := ih hrest (done ++ [(first.1, f first)])
      rw [List.append_assoc, List.append_assoc] at hrest
      exact (entry hfirst).trans hrest

/-- A rearranged value is equal. -/
theorem same (h : v.Rearranged w) (hv : v.DistinctKeys) : v.same w = true := by
  induction h with
  | refl v => exact v.same_self hv
  | trans huv _ ihuv ihvw => exact same_trans (ihuv hv) (ihvw (huv.distinctKeys hv))
  | array => exact sameItems_self _ hv
  | @order a a' _ _ h =>
      have hordered : (Value.dict a _).Rearranged (.dict a' _) := .order h
      have hw := hordered.distinctKeys hv
      exact dict_same_of_perm h hw.1 (entriesDistinctKeys_iff.mp hw.2) _ _
  | tokens h => exact same_iff.mpr (.quote (Node.same_iff_alike.mpr h))
  | closure => exact same_iff.mpr .closure
  | wording h => exact same_iff.mpr (.fault h)
  | @item _ before behind v w _ ih =>
      have hitems := itemsDistinctKeys_iff.mp hv
      rw [List.forall_mem_append, List.forall_mem_cons] at hitems
      have hself {items : List Value} (h : ∀ v ∈ items, v.DistinctKeys) :
          List.Forall₂ (fun v w => v.same w = true) items items :=
        List.forall₂_same.mpr fun v hv => v.same_self (h v hv)
      exact same_iff.mpr (.array (List.rel_append (hself hitems.1)
        (.cons (ih hitems.2.1) (hself hitems.2.2))))
  | @entry a before behind key v w hvw ih =>
      -- The other entries are found where they were, because no key stands there twice.
      have hw := (entry hvw).distinctKeys hv
      have hfound : ∀ entry ∈ before ++ (key, w) :: behind,
          valueUnder? entry.1 (before ++ (key, w) :: behind) = some entry.2 :=
        fun _ hentry => valueUnder?_of_mem hw.1 hentry
      have hvalues := entriesDistinctKeys_iff.mp hv.2
      rw [List.forall_mem_append, List.forall_mem_cons] at hfound hvalues
      refine same_iff.mpr (.dict (by simp) ?_)
      rw [List.forall_mem_append, List.forall_mem_cons]
      exact ⟨fun entry hentry => ⟨_, hfound.1 entry hentry, same_self _ (hvalues.1 entry hentry)⟩,
        ⟨_, hfound.2.1, ih hvalues.2.1⟩,
        fun entry hentry => ⟨_, hfound.2.2 entry hentry, same_self _ (hvalues.2.2 entry hentry)⟩⟩
  | returned _ ih => exact same_iff.mpr (.returned (ih hv))

end Value.Rearranged

/-- Equal values can be rearranged into each other. -/
theorem Value.rearranged_of_same {v w : Value} (h : v.same w = true) (hv : v.DistinctKeys) :
    v.Rearranged w := by
  induction v using Value.induction generalizing w with
  | array a items ih =>
      cases same_iff.mp h with
      | @array _ a' _ items' hitems =>
          have hkeys := itemsDistinctKeys_iff.mp hv
          have hall : List.Forall₂ Rearranged items items' :=
            ((List.forall₂_and_left _ _).mpr ⟨fun v hv w h => ih v hv (w := w) h (hkeys v hv),
              hitems⟩).imp fun _ w h => h.1 w h.2
          exact (Rearranged.items hall a []).trans .array
  | dict a entries ih =>
      cases same_iff.mp h with
      | @dict _ a' _ entries' hlength hfound =>
          let value (entry : Key × Value) : Value := (valueUnder? entry.1 entries').getD .null
          let found (entry : Key × Value) : Key × Value := (entry.1, value entry)
          have hvalue : ∀ entry ∈ entries, entry.2.Rearranged (value entry) := by
            intro entry hentry
            obtain ⟨w, hw, hsame⟩ := hfound entry hentry
            have heq : value entry = w := by simp [value, hw]
            exact heq ▸ ih entry hentry hsame (entriesDistinctKeys_iff.mp hv.2 entry hentry)
          -- What is found is in the other dict, and as much as there is.
          have hsubset : entries.map found ⊆ entries' := by
            intro entry' hentry'
            obtain ⟨entry, hentry, rfl⟩ := List.mem_map.mp hentry'
            obtain ⟨w, hw, -⟩ := hfound entry hentry
            have heq : found entry = (entry.1, w) := by simp [found, value, hw]
            exact heq ▸ mem_of_valueUnder? hw
          have hnodup : (entries.map found).Nodup := by
            refine List.Nodup.of_map Prod.fst ?_
            rw [List.map_map]
            exact hv.1
          have hperm : (entries.map found).Perm entries' :=
            (List.subperm_of_subset hnodup hsubset).perm_of_length_le (by simp [hlength])
          exact (Rearranged.entries hvalue a []).trans (.order hperm)
  | closure kind a params body s =>
      cases same_iff.mp h
      exact .closure
  | quote a node =>
      cases same_iff.mp h with
      | quote hnode => exact .tokens (Node.same_iff_alike.mp hnode)
  | returned v ih =>
      cases same_iff.mp h with
      | returned h => exact .returned (ih h hv)
  | fault f =>
      cases same_iff.mp h with
      | fault hf => exact .wording hf
  | _ =>
      cases same_iff.mp h
      exact .refl _

/-- Equality is rearranging. -/
theorem Value.same_iff_rearranged {v w : Value} (hv : v.DistinctKeys) :
    v.same w = true ↔ v.Rearranged w :=
  ⟨fun h => rearranged_of_same h hv, fun h => h.same hv⟩

/-! ### What equal values have in common -/

namespace Value

variable {v w : Value}

/-- A value is equal to itself, wherever it is met again. A handle
belongs to one value only. -/
theorem same_of_identical (h : v.identical w = true) (hv : v.DistinctKeys)
    (hone : ∀ a, v.handle? = some a → w.handle? = some a → v = w) : v.same w = true := by
  -- Arrays, dicts and quotes are identical by handle, and a handle has one value.
  have hself : v = w → v.same w = true := fun heq => heq ▸ v.same_self hv
  cases v with
  | array a _ =>
      cases w with
      | array b _ => exact hself (hone a rfl (congrArg some (beq_iff_eq.mp h).symm))
      | _ => simp [identical] at h
  | dict a _ =>
      cases w with
      | dict b _ => exact hself (hone a rfl (congrArg some (beq_iff_eq.mp h).symm))
      | _ => simp [identical] at h
  | quote a _ =>
      cases w with
      | quote b _ => exact hself (hone a rfl (congrArg some (beq_iff_eq.mp h).symm))
      | _ => simp [identical] at h
  | _ => cases w <;> simp_all [identical, same]

/-- Equal values are of one kind. -/
theorem kind_eq_of_same (h : v.same w = true) : v.kind = w.kind := by
  cases same_iff.mp h with
  | @closure kind => cases kind <;> rfl
  | _ => rfl

/-- Conditions take equal values for the same. -/
theorem isTruthy_eq_of_same (h : v.same w = true) : v.isTruthy = w.isTruthy := by
  cases same_iff.mp h <;> rfl

/-- Equal values are the same key, if they can be one. -/
theorem key?_eq_of_same (h : v.same w = true) : v.key? = w.key? := by
  cases same_iff.mp h <;> rfl

/-- Values with the same hash key are equal, if they are not two strings
with the same hash. -/
theorem same_of_hashKey?_eq {hash : String → UInt64} {key : HashKey}
    (hv : v.hashKey? hash = some key) (hw : w.hashKey? hash = some key)
    (hhash : ∀ s s', v = .str s → w = .str s' → hash s = hash s' → s = s') : v.same w = true := by
  rw [hashKey?_eq, Option.map_eq_some_iff] at hv hw
  obtain ⟨k, hk, hkey⟩ := hv
  obtain ⟨k', hk', hkey'⟩ := hw
  obtain rfl := key?_eq_some_iff.mp hk
  obtain rfl := key?_eq_some_iff.mp hk'
  -- Two strings with one hash are the only way to collide, and that is ruled out.
  have htells : TellsApart hash [k, k'] := by
    intro s s' hs hs' heq
    rw [List.mem_pair] at hs hs'
    rcases hs with rfl | rfl <;> rcases hs' with hs' | hs'
    · cases hs'
      rfl
    · exact hhash s s' rfl (hs' ▸ rfl) heq
    · exact (hhash s' s (hs' ▸ rfl) rfl heq.symm).symm
    · cases hs'
      rfl
  obtain rfl := (htells.hashKey_inj (by simp) (by simp)).mp (hkey.trans hkey'.symm)
  exact same_self _ (distinctKeys_toValue k)

end Value

/-- In a heap and in an answer, no dict has a key twice, and identical
values are equal. -/
structure LawfulIn (heap : Heap) (answer : Option Value) : Prop where
  distinctKeys {v : Value} (hv : Found heap answer v) : v.DistinctKeys
  same_of_identical {v w : Value} (hv : Found heap answer v) (hw : Found heap answer w)
    (h : v.identical w = true) : v.same w = true

/-- With one value for each handle and distinct keys, equality is lawful
on all values that are found. -/
theorem OneValueEach.lawfulIn {heap : Heap} {answer : Option Value}
    (hone : OneValueEach heap answer) (hbound : heap.All Value.DistinctKeys)
    (hanswer : ∀ v ∈ answer, v.DistinctKeys) :
    LawfulIn heap answer := by
  have hkeys {v : Value} (hv : Found heap answer v) : v.DistinctKeys :=
    hv.of_all (fun _ _ h hcontains => h.contains hcontains) hbound hanswer
  exact ⟨hkeys, fun hv hw h => Value.same_of_identical h (hkeys hv) fun a => hone a _ _ hv hw⟩

/-- Equality of values is reflexive, symmetric and transitive, on values
in which no dict has a key twice. It holds between two values exactly if
one can be rearranged into the other; so it ignores the order in which
the entries of a dict stand, and the tokens of trees, at any depth.

A value is equal to itself wherever it is met again, as long as a handle
belongs to one value only. Equal values are of one kind, count as true or
not as one, and have the same hash key, whatever the hash is. Values with
the same hash key are equal, unless they are two strings with the same
hash.

In what a session binds and answers with, at any depth, a handle does
belong to one value only, and no dict has a key twice. -/
theorem equality_is_lawful (hash : String → UInt64) :
    Equivalence (fun v w : {v : Value // v.DistinctKeys} => v.1.same w.1 = true) ∧
    (∀ v w : Value, v.DistinctKeys → (v.same w = true ↔ v.Rearranged w)) ∧
    (∀ v w : Value, v.identical w = true → v.DistinctKeys →
      (∀ a, v.handle? = some a → w.handle? = some a → v = w) → v.same w = true) ∧
    (∀ v w : Value, v.same w = true →
      v.kind = w.kind ∧ v.isTruthy = w.isTruthy ∧ v.hashKey? hash = w.hashKey? hash) ∧
    (∀ (v w : Value) key, v.hashKey? hash = some key → w.hashKey? hash = some key →
      (∀ s s', v = .str s → w = .str s' → hash s = hash s' → s = s') → v.same w = true) ∧
    (∀ heap, Reachable (fun _ => True) heap → LawfulIn heap none ∧
      (∀ fuel scope node v heap', evalNode fuel scope node heap = .ok (v, heap') →
        LawfulIn heap' (some v)) ∧
      (∀ fuel source scope macros answer heap',
        (run fuel source scope macros).run heap = .ok (.ok answer, heap') →
          LawfulIn heap' answer) ∧
      ∀ fuel source scope answer heap',
        (evaluate fuel source scope).run heap = .ok (.ok answer, heap') →
          LawfulIn heap' answer) := by
  refine ⟨⟨fun v => v.1.same_self v.2, fun {v _} h => ?_, fun huv hvw => Value.same_trans huv hvw⟩,
    fun v w hv => Value.same_iff_rearranged hv,
    fun v w h hv hone => Value.same_of_identical h hv hone,
    fun v w h => ⟨Value.kind_eq_of_same h, Value.isTruthy_eq_of_same h, ?_⟩,
    fun v w key hv hw hhash => Value.same_of_hashKey?_eq hv hw hhash, fun heap hheap => ?_⟩
  -- Symmetry is read off rearrangements, which can be undone.
  · have hrearranged := Value.rearranged_of_same h v.2
    exact hrearranged.symm.same (hrearranged.distinctKeys v.2)
  · rw [Value.hashKey?_eq, Value.hashKey?_eq, Value.key?_eq_of_same h]
  · have hP := inherited_distinctKeys
    have hall := hP.reachable hheap
    refine ⟨hheap.oneValueEach.lawfulIn hall nofun, fun fuel scope node v heap' hrun => ?evalNode,
      fun fuel source scope macros answer heap' hrun => ?run,
      fun fuel source scope answer heap' hrun => ?evaluate⟩
    case evalNode =>
      obtain ⟨hall', hv⟩ := (hP.evalNode fuel scope node).of_run hall hrun
      exact (oneValueEach_of_evalNode hheap hrun).lawfulIn hall' fun u hu =>
        Option.some.inj hu ▸ hv
    case run =>
      obtain ⟨hall', hanswer⟩ := (hP.run fuel source scope macros).of_run hall hrun
      exact (oneValueEach_of_run hheap hrun).lawfulIn hall' (hanswer answer rfl)
    case evaluate =>
      obtain ⟨hall', hanswer⟩ := (hP.evaluate fuel source scope).of_run hall hrun
      exact (oneValueEach_of_evaluate hheap hrun).lawfulIn hall' (hanswer answer rfl)

/-- The dicts `{"a": [quote(1)], 1: true}` and `{1: true, "a": [quote(1)]}`,
made one after the other; the tree that is quoted in the second one
carries another token. They are equal both ways. And an array that a
program binds to a name and answers with. -/
theorem equality_is_lawful_nested :
    let node (t : Token) : Node := .expr (.int t 1)
    let entries (t : Token) (a : Nat) : List (Key × Value) :=
      [(.str "a", .array ⟨a⟩ [.quote ⟨a + 1⟩ (node t)]), (.int 1, .bool true)]
    let v : Value := .dict ⟨2⟩ (entries (.eof 0) 0)
    let w : Value := .dict ⟨5⟩ (entries ⟨.int, "01", ⟨6, 8⟩⟩ 3).reverse
    let hash (s : String) : UInt64 := .ofNat s.length
    let xs : Value := .array ⟨0⟩ [.int 1]
    let program : Program := [.letIn (.eof 0) "xs" (.array (.eof 0) [.int (.eof 0) 1]),
      .expr (.eof 0) (.ident (.eof 0) "xs")]
    let heap : Heap := (({} : Heap).newScope none).2
    let heap' : Heap := heap.newHandle.2.bind ⟨0⟩ "xs" xs
    v.DistinctKeys ∧ w.DistinctKeys ∧ v.Rearranged w ∧ v.same w = true ∧ w.same v = true ∧
      v.identical v = true ∧ v.same v = true ∧ v.kind = w.kind ∧
      (Value.str "a").hashKey? hash = some ⟨.string, 1⟩ ∧ (Value.str "a").same (.str "a") = true ∧
      Reachable (fun _ => True) heap ∧
      evalNode 3 ⟨0⟩ (.program program) heap = .ok (xs, heap') ∧ LawfulIn heap' (some xs) := by
  intro node entries v w hash xs program heap heap'
  have hv : v.DistinctKeys := ⟨by decide, ⟨trivial, trivial⟩, trivial, trivial⟩
  have hw : w.DistinctKeys := ⟨by decide, trivial, ⟨trivial, trivial⟩, trivial⟩
  -- The quote differs in its token, the array in its handle and the dict in its order.
  have hvw : v.Rearranged w := by
    have hquote : (Value.quote ⟨1⟩ (node (.eof 0))).Rearranged
        (.quote ⟨4⟩ (node ⟨.int, "01", ⟨6, 8⟩⟩)) := .tokens (.int trivial)
    have harray : (Value.array ⟨0⟩ [.quote ⟨1⟩ (node (.eof 0))]).Rearranged
        (.array ⟨3⟩ [.quote ⟨4⟩ (node ⟨.int, "01", ⟨6, 8⟩⟩)]) :=
      (@Value.Rearranged.item ⟨0⟩ [] [] _ _ hquote).trans .array
    exact (@Value.Rearranged.entry ⟨2⟩ [] _ (.str "a") _ _ harray).trans
      (.order (List.reverse_perm _).symm)
  obtain ⟨hequivalence, hiff, hidentical, hcommon, hhash, hsession⟩ := equality_is_lawful hash
  have hsame := (hiff v w hv).mpr hvw
  have hstr : (Value.str "a").hashKey? hash = some ⟨.string, 1⟩ := rfl
  have hreachable : Reachable (fun _ => True) heap := .newScope none .empty
  have hrun : evalNode 3 ⟨0⟩ (.program program) heap = .ok (xs, heap') := rfl
  exact ⟨hv, hw, hvw, hsame, hequivalence.symm (x := ⟨v, hv⟩) (y := ⟨w, hw⟩) hsame, rfl,
    hidentical v v rfl hv fun _ _ _ => rfl, (hcommon v w hsame).1, hstr,
    hhash _ _ _ hstr hstr fun s s' hs hs' _ => Value.str.inj (hs.symm.trans hs'), hreachable,
    hrun, (hsession heap hreachable).2.1 _ _ _ _ _ hrun⟩

end QuoteScript
