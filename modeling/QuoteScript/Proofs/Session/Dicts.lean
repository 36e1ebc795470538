import QuoteScript.Proofs.Eval.Context
import QuoteScript.Proofs.Session.Inherited

/-!
# `QuoteScript.Proofs.Session.Dicts`: dicts are maps that keep an order

The pairs of a dict literal are evaluated from left to right and put into
the dict one after the other. What comes of it is known from the pairs
alone: the keys in the order in which they were first given, and for each
of them the value of the last pair with this key. An index finds that
value by comparing keys, and keys of two kinds are never equal.

In a session no dict has a key twice. So a dict can be read as a map from
hash keys to pairs, and a dict whose pairs have been put in another order
is equal to it.

* `PairsAnswer`: pairs that are evaluated.
* `PairsAnswer.answers`: the dict that comes of them.
* `answers_index`, `valueAt_dictOf`: an index into it.
* `Value.MapsHashKeys`: dicts as maps from hash keys.
* `dicts_are_ordered_maps`: all of it.
-/

set_option autoImplicit false

namespace QuoteScript

open EvalM

/-- The pairs of a dict are evaluated one after the other, and give
`pairs`. None unwinds, and what is in front can be a key. -/
inductive PairsAnswer (scope : ScopeId) :
    List (Expr × Expr) → Heap → List (Key × Value) → Heap → Prop where
  | nil {heap : Heap} : PairsAnswer scope [] heap [] heap
  | cons {key value : Expr} {rest : List (Expr × Expr)} {heap heap₁ heap₂ heap₃ : Heap} {k : Key}
      {v : Value} {pairs : List (Key × Value)}
      (hkey : Answers scope (.expr key) heap (some k.toValue) heap₁)
      (hvalue : Answers scope (.expr value) heap₁ (some v) heap₂) (hv : v.isUnwinding = false)
      (hrest : PairsAnswer scope rest heap₂ pairs heap₃) :
      PairsAnswer scope ((key, value) :: rest) heap ((k, v) :: pairs) heap₃

variable {scope : ScopeId} {heap heap₁ heap₂ heap' : Heap} {es : List (Expr × Expr)}
  {pairs : List (Key × Value)}

/-! ### Literals -/

namespace PairsAnswer

/-- Pairs that answer are passed. -/
theorem pairsPass (h : PairsAnswer scope es heap pairs heap') : PairsPass scope es heap heap' := by
  induction h with
  | nil => exact .nil
  | cons hkey hvalue hv _ ih => exact .cons ⟨_, hkey⟩ ⟨some _, hvalue, hv⟩ ih

/-- The pairs are put behind those that are done. -/
theorem evalPairs_eq (h : PairsAnswer scope es heap pairs heap') (done : List (Key × Value)) :
    ∀ᶠ fuel in Filter.atTop, evalPairs (evalExpr fuel scope) (dictOf done) es heap =
      newDict (dictOf (done ++ pairs)) heap' := by
  induction h generalizing done with
  | nil => exact .of_forall fun _ => by rw [List.append_nil]; rfl
  | @cons _ _ _ _ _ _ _ k v _ hkey hvalue hv _ ih =>
      have hclean : k.toValue.isUnwinding = false := by cases k <;> rfl
      filter_upwards [hkey.eventually, hvalue.eventually, ih (done ++ [(k, v)])]
        with fuel hkey hvalue hrest
      rw [evalPairs, unlessUnwinding_goes hclean hkey, Value.key?_eq_some_iff.mpr rfl]
      rw [dictOf_append, List.append_assoc] at hrest
      exact (unlessUnwinding_goes hv hvalue).trans hrest

/-- A dict literal answers with a new dict. -/
theorem answers (h : PairsAnswer scope es heap pairs heap') (t : Token) :
    Answers scope (.expr (.dict t es)) heap (some (.dict heap'.newHandle.1 (dictOf pairs)))
      heap'.newHandle.2 := by
  refine .of_evalWith ?_
  filter_upwards [h.evalPairs_eq []] with fuel hrun
  exact hrun

/-- The values that are evaluated have every property that is handed
on. -/
theorem hands {P : Value → Prop} (hP : Inherited P) (h : PairsAnswer scope es heap pairs heap')
    (hheap : heap.All P) : heap'.All P ∧ ∀ pair ∈ pairs, P pair.2 := by
  have hexpr {e : Expr} {v : Value} {heap heap' : Heap} (hheap : heap.All P)
      (he : Answers scope (.expr e) heap (some v) heap') : heap'.All P ∧ P v := by
    obtain ⟨fuel, hrun⟩ := he.eventually.exists
    exact (hP.evalExpr fuel scope e).of_run hheap hrun
  induction h with
  | nil => exact ⟨hheap, List.forall_mem_nil _⟩
  | cons hkey hvalue _ _ ih =>
      obtain ⟨hheap₂, hv⟩ := hexpr (hexpr hheap hkey).1 hvalue
      obtain ⟨hheap₃, hpairs⟩ := ih hheap₂
      exact ⟨hheap₃, List.forall_mem_cons.mpr ⟨hv, hpairs⟩⟩

end PairsAnswer

/-! ### Indexing -/

/-- An index is evaluated behind what it is an index of. -/
theorem answers_index {t : Token} {left index : Expr} {v i : Value}
    (hleft : Answers scope (.expr left) heap (some v) heap₁) (hv : v.isUnwinding = false)
    (hindex : Answers scope (.expr index) heap₁ (some i) heap₂) (hi : i.isUnwinding = false) :
    Answers scope (.expr (.index t left index)) heap (some (applyIndex v i)) heap₂ := by
  refine .of_evalWith ?_
  filter_upwards [hleft.eventually, hindex.eventually] with fuel hleft hindex
  exact (unlessUnwinding_goes hv hleft).trans (unlessUnwinding_goes hi hindex)

/-- Keys are equal as values only if they are the same key. -/
theorem Key.same_toValue (key other : Key) :
    key.toValue.same other.toValue = true ↔ key = other := by
  cases key <;> cases other <;> simp [Key.toValue, Value.same, Value.identical]

/-- An index finds the value of the last pair whose key is equal to
it. -/
theorem valueAt_dictOf (key : Key) (pairs : List (Key × Value)) :
    valueAt (dictOf pairs) key.toValue =
      ((pairs.reverse.find? fun pair => pair.1.toValue.same key.toValue).map Prod.snd).getD
        .null := by
  -- Of pairs with one key the last one counts, so the search runs backwards.
  have hlookup (l : List (Key × Value)) : l.lookup key =
      (l.find? fun pair => pair.1.toValue.same key.toValue).map Prod.snd := by
    induction l with
    | nil => rfl
    | cons pair rest ih =>
        obtain ⟨k, v⟩ := pair
        rw [List.lookup_cons, List.find?_cons]
        by_cases hkey : key = k
        · rw [beq_iff_eq.mpr hkey, (k.same_toValue key).mpr hkey.symm]
          rfl
        · have hne : k.toValue.same key.toValue = false :=
            Bool.eq_false_iff.mpr fun h => hkey ((k.same_toValue key).mp h).symm
          rw [beq_eq_false_iff_ne.mpr hkey, hne]
          exact ih
  rw [valueAt, Value.key?_eq_some_iff.mpr rfl]
  dsimp only
  rw [valueUnder?_dictOf, hlookup]

/-! ### Dicts as maps -/

/-- Every dict in the value can be kept by hash keys. Its pairs, in their
order, are what is kept when each of them is put under the hash key of the
value that is its key. Each hash key is there once, and under it a pair
whose key has this hash key. -/
def Value.MapsHashKeys (hash : String → UInt64) (v : Value) : Prop :=
  ∀ handle entries, v.Contains (.dict handle entries) →
    TellsApart hash (entries.map Prod.fst) →
      ∃ kept, Kept hash kept ∧
        kept.map Prod.snd = entries.map (fun entry => ⟨entry.1.toValue, entry.2⟩) ∧
        (kept.map Prod.fst).Nodup ∧
        ∀ entry ∈ kept, entry.2.key.hashKey? hash = some entry.1

/-- A value with distinct keys can be kept by hash keys, dict by dict. -/
theorem Value.DistinctKeys.mapsHashKeys {v : Value} (h : v.DistinctKeys)
    (hash : String → UInt64) : v.MapsHashKeys hash := by
  intro handle entries hcontains htells
  have hkept := Kept.foldl hash entries
  refine ⟨_, hkept, ?_, hkept.nodup, fun entry hentry => hkept.hashKey?_key hentry⟩
  -- The dict has no key twice, so its entries are the pairs that make it.
  rw [foldl_insertPair_eq htells, dictOf_eq_self (h.contains hcontains).1, hashed, List.map_map]
  rfl

/-- A dict literal whose pairs are evaluated answers with a new dict. Its
keys are those of the pairs in the order in which they were first given,
and the value under a key is that of the last pair with the key. Kept by
hash keys, the pairs make the same dict, as long as no two of the strings
have the same hash.

An index that can be a key finds the value of the last pair whose key is
equal to it, and null if there is none; keys of different kinds are never
equal. Any other index, and any other key in a literal, is a fault.

All dicts that a session binds or answers with can be kept by hash keys,
and map each of them to a pair whose key has it. And if pairs with
different keys are put in another order, the dict that comes of them is
equal. -/
theorem dicts_are_ordered_maps (hash : String → UInt64) :
    (∀ scope t es heap pairs heap', PairsAnswer scope es heap pairs heap' →
      Answers scope (.expr (.dict t es)) heap
        (some (.dict heap'.newHandle.1 (dictOf pairs))) heap'.newHandle.2) ∧
    (∀ pairs : List (Key × Value),
      (dictOf pairs).map Prod.fst = (pairs.map Prod.fst).eraseDups ∧
      (∀ key, valueUnder? key (dictOf pairs) = pairs.reverse.lookup key) ∧
      (TellsApart hash (pairs.map Prod.fst) →
        pairs.foldl (fun entries pair =>
          insertPair (pair.1.hashKey hash) ⟨pair.1.toValue, pair.2⟩ entries) [] =
            hashed hash (dictOf pairs)) ∧
      ∀ key, TellsApart hash (key :: pairs.map Prod.fst) →
        (hashed hash (dictOf pairs)).lookup (key.hashKey hash) =
          (pairs.reverse.lookup key).map (HashPair.mk key.toValue)) ∧
    (∀ scope t left index heap heap₁ heap₂ handle pairs i,
      Answers scope (.expr left) heap (some (.dict handle (dictOf pairs))) heap₁ →
      Answers scope (.expr index) heap₁ (some i) heap₂ → i.isUnwinding = false →
        ((i.hashKey? hash).isSome → Answers scope (.expr (.index t left index)) heap
          (some (((pairs.reverse.find? fun pair => pair.1.toValue.same i).map Prod.snd).getD .null))
          heap₂) ∧
        (i.hashKey? hash = none → ∃ f, f.message = "Unusable as hash key: " ++ i.kind.tag ∧
          Answers scope (.expr (.index t left index)) heap (some (.fault f)) heap₂)) ∧
    (∀ key other : Key, key.toValue.same other.toValue = true →
      key.toValue.kind = other.toValue.kind) ∧
    (∀ scope t before key value behind heap pairs heap₁ v heap₂,
      PairsAnswer scope before heap pairs heap₁ →
      Answers scope (.expr key) heap₁ (some v) heap₂ → v.isUnwinding = false →
      v.hashKey? hash = none → ∃ f, f.message = "Unusable as hash key: " ++ v.kind.tag ∧
        Answers scope (.expr (.dict t (before ++ (key, value) :: behind))) heap
          (some (.fault f)) heap₂) ∧
    (∀ heap, Reachable (fun _ => True) heap → heap.All (Value.MapsHashKeys hash) ∧
      (∀ fuel scope node v heap', evalNode fuel scope node heap = .ok (v, heap') →
        v.MapsHashKeys hash) ∧
      (∀ fuel source scope macros v heap',
        (run fuel source scope macros).run heap = .ok (.ok (some v), heap') →
          v.MapsHashKeys hash) ∧
      (∀ fuel source scope v heap',
        (evaluate fuel source scope).run heap = .ok (.ok (some v), heap') →
          v.MapsHashKeys hash) ∧
      ∀ scope es pairs heap', PairsAnswer scope es heap pairs heap' →
        (pairs.map Prod.fst).Nodup → ∀ pairs', pairs'.Perm pairs → ∀ handle handle',
          (Value.dict handle' (dictOf pairs')).same (.dict handle (dictOf pairs)) = true) := by
  refine ⟨fun scope t es heap pairs heap' h => h.answers t, fun pairs => ?entries,
    fun scope t left index heap heap₁ heap₂ handle pairs i hleft hindex hi => ?index,
    fun key other h => by rw [(key.same_toValue other).mp h],
    fun scope t before key value behind heap pairs heap₁ v heap₂ hbefore hkey hv hnone => ?unusable,
    fun heap hheap => ?reachable⟩
  case entries =>
    -- The entries have no strings among their keys that the pairs do not have.
    refine ⟨keys_dictOf pairs, fun key => valueUnder?_dictOf key pairs, foldl_insertPair_eq,
      fun key htells => ?_⟩
    rw [← valueUnder?_dictOf]
    refine lookup_hashed (htells.mono fun k hk => ?_)
    rwa [keys_dictOf, List.mem_cons, List.mem_eraseDups, ← List.mem_cons] at hk
  case index =>
    have hanswers := answers_index (t := t) hleft rfl hindex hi
    rw [Value.hashKey?_eq]
    cases hkey : i.key? with
    | some key =>
        obtain rfl := Value.key?_eq_some_iff.mp hkey
        refine ⟨fun _ => ?_, fun hnone => absurd hnone (Option.some_ne_none _)⟩
        rwa [applyIndex, valueAt_dictOf] at hanswers
    | none =>
        refine ⟨fun hsome => absurd hsome Bool.false_ne_true,
          fun _ => ⟨.unusableKey i.kind, rfl, ?_⟩⟩
        rwa [applyIndex, valueAt, hkey] at hanswers
  case unusable =>
    rw [Value.hashKey?_eq, Option.map_eq_none_iff] at hnone
    exact ⟨_, rfl, dict_stops_at_unusable_key hbefore.pairsPass hkey hv hnone⟩
  case reachable =>
    have hP := inherited_distinctKeys
    have hall := hP.reachable hheap
    refine ⟨fun frame hframe binding hbinding =>
        (hall frame hframe binding hbinding).mapsHashKeys hash,
      fun fuel scope node v heap' hrun => ?_, fun fuel source scope macros v heap' hrun => ?_,
      fun fuel source scope v heap' hrun => ?_,
      fun scope es pairs heap' h hkeys pairs' hperm handle handle' => ?_⟩
    · exact ((hP.evalNode fuel scope node).of_run hall hrun).2.mapsHashKeys hash
    · exact (((hP.run fuel source scope macros).of_run hall hrun).2 _ rfl v rfl).mapsHashKeys hash
    · exact (((hP.evaluate fuel source scope).of_run hall hrun).2 _ rfl v rfl).mapsHashKeys hash
    · have hkeys' : (pairs'.map Prod.fst).Nodup := (hperm.map Prod.fst).nodup_iff.mpr hkeys
      rw [dictOf_eq_self hkeys, dictOf_eq_self hkeys']
      exact dict_same_of_perm hperm hkeys (h.hands hP hall).2 handle handle'

/-- The expression `{"a": 1, 1: 2, "a": 3}`, with an index that is
there, and with one that can be no key. The first two pairs make the same
dict in the other order. -/
theorem dicts_are_ordered_maps_repeated_key :
    let t : Token := .fixed .leftBrace {}
    let es : List (Expr × Expr) :=
      [(.str t "a", .mkInt 1), (.mkInt 1, .mkInt 2), (.str t "a", .mkInt 3)]
    let heap : Heap := (({} : Heap).newScope none).2
    let pairs : List (Key × Value) := [(.str "a", .int 1), (.int 1, .int 2), (.str "a", .int 3)]
    let entries : List (Key × Value) := [(.str "a", .int 3), (.int 1, .int 2)]
    let hash (s : String) : UInt64 := .ofNat s.length
    PairsAnswer ⟨0⟩ es heap pairs heap ∧ TellsApart hash (pairs.map Prod.fst) ∧
      Reachable (fun _ => True) heap ∧
      Answers ⟨0⟩ (.expr (.dict t es)) heap (some (.dict ⟨0⟩ entries)) heap.newHandle.2 ∧
      pairs.foldl (fun entries pair =>
        insertPair (pair.1.hashKey hash) ⟨pair.1.toValue, pair.2⟩ entries) [] =
          hashed hash entries ∧
      Answers ⟨0⟩ (.expr (.index t (.dict t es) (.str t "a"))) heap (some (.int 3))
        heap.newHandle.2 ∧
      (∃ f, f.message = "Unusable as hash key: ARRAY" ∧
        Answers ⟨0⟩ (.expr (.index t (.dict t es) (.array t []))) heap (some (.fault f))
          heap.newHandle.2.newHandle.2) ∧
      (Value.dict ⟨1⟩ (dictOf (pairs.take 2).reverse)).same
        (.dict ⟨0⟩ (dictOf (pairs.take 2))) = true := by
  intro t es heap pairs entries hash
  have hpairs : PairsAnswer ⟨0⟩ es heap pairs heap :=
    .cons ⟨1, rfl⟩ ⟨1, rfl⟩ rfl <| .cons ⟨1, rfl⟩ ⟨1, rfl⟩ rfl <|
      .cons ⟨1, rfl⟩ ⟨1, rfl⟩ rfl .nil
  have hfirst : PairsAnswer ⟨0⟩ (es.take 2) heap (pairs.take 2) heap :=
    .cons ⟨1, rfl⟩ ⟨1, rfl⟩ rfl <| .cons ⟨1, rfl⟩ ⟨1, rfl⟩ rfl .nil
  -- There is but one string among the keys, so any hash tells it apart.
  have htells : TellsApart hash (pairs.map Prod.fst) := by
    intro s s' hs hs' _
    obtain rfl : s = "a" := by simpa [pairs] using hs
    obtain rfl : s' = "a" := by simpa [pairs] using hs'
    rfl
  have hreachable : Reachable (fun _ => True) heap := .newScope none .empty
  obtain ⟨hliteral, hentries, hindex, -, -, hsession⟩ := dicts_are_ordered_maps hash
  have hdict := hliteral ⟨0⟩ t es heap pairs heap hpairs
  have hkey := (hindex ⟨0⟩ t _ (.str t "a") heap _ _ _ pairs (.str "a") hdict ⟨1, rfl⟩ rfl).1 rfl
  have hfault := (hindex ⟨0⟩ t _ (.array t []) heap _ _ _ pairs (.array ⟨1⟩ []) hdict
    ⟨2, rfl⟩ rfl).2 rfl
  have hsame := (hsession heap hreachable).2.2.2.2 ⟨0⟩ _ _ heap hfirst (by decide)
    _ (List.reverse_perm _) ⟨0⟩ ⟨1⟩
  exact ⟨hpairs, htells, hreachable, hdict, (hentries pairs).2.2.1 htells, hkey, hfault, hsame⟩

end QuoteScript
