import QuoteScript.Expansion.Expand
import QuoteScript.Proofs.Eval.Logic
import QuoteScript.Proofs.Eval.Simulation

/-!
# `QuoteScript.Proofs.Expansion.Simulation`: two expansions side by side

What is true of two evaluations is true of two expansions: from
corresponding heaps, alike programs expand to alike programs, or fail
with the same misuse. The bodies of macros are evaluated in step, and
what takes the place of a call is held by corresponding quotes.

A program whose names are bound to no macro is its own expansion.

* `SimulatesOrFails`: computations that may fail besides.
* `defineMacros_simulates`, `expandProgram_simulates`: the two steps of
  an expansion.
* `expandProgram_of_unbound`: an expansion without macros.
-/

set_option autoImplicit false

namespace QuoteScript

open EvalM

/-- Two computations fail in the same way, or their answers have the
property `P`. -/
inductive OrFails {ε α β : Type} (P : α → β → Prop) : Except ε α → Except ε β → Prop where
  | ok {a : α} {b : β} (h : P a b) : OrFails P (.ok a) (.ok b)
  | error (e : ε) : OrFails P (.error e) (.error e)

/-- The same as `Simulates` for computations that may fail besides: both
fail in the same way, or neither does. -/
def SimulatesOrFails {ε α β : Type} (ρ : Pairing) (x : ExceptT ε EvalM α) (y : ExceptT ε EvalM β)
    (P : Pairing → α → β → Prop) : Prop :=
  Simulates ρ x.run y.run fun ρ' => OrFails (P ρ')

variable {ρ : Pairing} {s s' : ScopeId} {v v' : Value}

namespace SimulatesOrFails

variable {ε α β γ δ : Type} {P : Pairing → α → β → Prop}

/-- Two answers that are there. -/
theorem pure {a : α} {b : β} (h : P ρ a b) :
    SimulatesOrFails ρ (Pure.pure a : ExceptT ε EvalM α) (Pure.pure b) P :=
  Simulates.pure (.ok h)

/-- Two computations in sequence, of which the second is left out on
both sides or on neither. -/
theorem bind {x : ExceptT ε EvalM α} {y : ExceptT ε EvalM β} {next : α → ExceptT ε EvalM γ}
    {next' : β → ExceptT ε EvalM δ} {Q : Pairing → γ → δ → Prop} (hx : SimulatesOrFails ρ x y P)
    (hnext : ∀ ρ' a b, ρ ≤ ρ' → P ρ' a b → SimulatesOrFails ρ' (next a) (next' b) Q) :
    SimulatesOrFails ρ (x >>= next) (y >>= next') Q := by
  refine Simulates.bind hx fun ρ' r r' hle hr => ?_
  cases hr with
  | ok h => exact hnext ρ' _ _ hle h
  | error e => exact .pure (.error e)

/-- Computations that do not fail. -/
theorem lift {x : EvalM α} {y : EvalM β} (h : Simulates ρ x y P) :
    SimulatesOrFails ρ (ExceptT.lift x : ExceptT ε EvalM α) (ExceptT.lift y) P := by
  have hbind : Simulates ρ (x >>= fun a => Pure.pure (Except.ok a : Except ε α))
      (y >>= fun b => Pure.pure (Except.ok b : Except ε β)) fun ρ' => OrFails (P ρ') :=
    h.bind fun _ _ _ _ hab => .pure (.ok hab)
  exact hbind

/-- The same failure on both sides. -/
theorem throw (e : ε) :
    SimulatesOrFails ρ (throw e : ExceptT ε EvalM α) (throw e : ExceptT ε EvalM β) P := by
  show Simulates ρ (Pure.pure (Except.error e)) (Pure.pure (Except.error e)) _
  exact .pure (.error e)

end SimulatesOrFails

/-- What is said about two passes that may fail, from some pairing
on. -/
def simulationOrFails (ε : Type) (ρ : Pairing) :
    Coupling (ExceptT ε EvalM) (ExceptT ε EvalM) where
  relates x y P := ∀ ρ', ρ ≤ ρ' → SimulatesOrFails ρ' x y fun _ => P
  pure h _ _ := .pure h
  bind hx hnext ρ' hle :=
    (hx ρ' hle).bind fun _ a b hle' hab => hnext a b hab _ (hle.trans hle')

/-- Two programs, up to tokens that tell. -/
abbrev ProgramsAlike (program program' : Program) : Prop :=
  Alike .telling (.body program) (.body program')

/-! ### Definitions -/

/-- Alike statements define the same macro, up to tokens, or neither
defines one. -/
theorem rel_macroDefinition? {st st' : Stmt} (h : Alike .telling (.stmt st) (.stmt st')) :
    Option.Rel (fun d d' => d.1 = d'.1 ∧ d.2.1 = d'.2.1 ∧
      Alike .telling (.block d.2.2) (.block d'.2.2)) (macroDefinition? st)
      (macroDefinition? st') := by
  cases h with
  | letIn _ he =>
      cases he with
      | @lambda _ _ kind _ _ _ _ hbody =>
          cases kind with
          | function => exact .none
          | macroRule => exact .some ⟨rfl, rfl, hbody⟩
      | _ => exact .none
  | _ => exact .none

/-- Alike programs define alike macros, and what is left of them is
alike. -/
theorem defineMacros_simulates (hs : ρ.scope s s') {program program' : Program}
    (h : ProgramsAlike program program') :
    Simulates ρ (defineMacros s program) (defineMacros s' program') fun _ => ProgramsAlike := by
  induction program generalizing ρ program' with
  | nil =>
      cases h
      exact .pure .noStmts
  | cons st rest ih =>
      cases h with
      | @stmts _ st' _ _ hst hrest =>
          have hdefinition := rel_macroDefinition? hst
          rw [defineMacros, defineMacros]
          generalize macroDefinition? st = d, macroDefinition? st' = d' at hdefinition ⊢
          cases hdefinition with
          | none => exact (ih hs hrest).bind fun _ _ _ _ hrest' => .pure (.stmts hst hrest')
          | @some d d' hd =>
              obtain ⟨name, params, body⟩ := d
              obtain ⟨_, _, body'⟩ := d'
              -- The names and the parameters are the same, and only the bodies may differ in
              -- their tokens.
              obtain ⟨rfl, rfl, hbody⟩ := hd
              refine (newClosure_simulates hs .macroRule params hbody).bind fun ρ₁ v v' hle hv => ?_
              have hs₁ := hle.1 _ _ hs
              exact (bindName_simulates hs₁ name hv).bind fun ρ₂ _ _ hle' _ =>
                ih (hle'.1 _ _ hs₁) hrest

/-! ### Calls -/

/-- Alike nodes are calls of the same name, or neither is the call of a
name. -/
theorem rel_namedCall? {node node' : Node} (h : Alike .telling node.part node'.part) :
    Option.Rel (fun c c' => c.1 = c'.1 ∧ Alike .telling (.exprs c.2) (.exprs c'.2))
      (namedCall? node) (namedCall? node') := by
  cases h.nodes with
  | expr he =>
      cases he with
      | call _ hf hargs =>
          cases hf with
          | ident _ => exact .some ⟨rfl, hargs⟩
          | _ => exact .none
      | _ => exact .none
  | _ => exact .none

/-- Quotes of alike arguments. -/
theorem quoteAll_simulates {es es' : List Expr} (h : Alike .telling (.exprs es) (.exprs es')) :
    Simulates ρ (quoteAll es) (quoteAll es') ItemsCorrespond := by
  induction es generalizing ρ es' with
  | nil =>
      cases h
      exact .pure .nil
  | cons e rest ih =>
      cases h with
      | @exprs _ e' _ _ he hrest =>
          have hnode : Alike .telling (Node.expr e).part (Node.expr e').part := he
          refine (newQuote_simulates hnode).bind fun ρ₁ v v' _ hv => ?_
          exact (ih hrest).bind fun ρ₂ _ _ hle hvalues => .pure (.cons (hv.mono hle) hvalues)

/-- Alike trees, or the same misuse: it names the kind of the value
only. -/
theorem orFails_quotedTree (name : String) (hv : Value.Corresponds ρ v v') :
    OrFails (fun node node' => Alike .telling node.part node'.part) (quotedTree name v)
      (quotedTree name v') := by
  have hkind := hv.kind
  have hmisuse {m m' : Misuse} (h : m = m') : OrFails (fun (node node' : Node) =>
      Alike .telling node.part node'.part) (.error m) (.error m') := h ▸ .error m
  cases hv with
  | quote _ hnode => exact .ok hnode
  | fault => exact .error _
  | _ => exact hmisuse (congrArg (Misuse.notAQuote name) hkind)

/-- Two passes that expand calls, from a pairing of the two scopes of
macros on. -/
theorem expandCall_couples {eval eval' : Evaluator} (heval : EvaluatorSimulates eval eval')
    (hs : ρ.scope s s') :
    Couples (simulationOrFails Misuse ρ) .telling (expandCall eval s) (expandCall eval' s') := by
  intro node node' hnode ρ' hle
  have hs' := hle.1 _ _ hs
  have hcall := rel_namedCall? hnode
  unfold expandCall
  generalize namedCall? node = call, namedCall? node' = call' at hcall ⊢
  cases hcall with
  | none => exact .pure hnode
  | @some call call' hc =>
      obtain ⟨name, args⟩ := call
      obtain ⟨_, args'⟩ := call'
      obtain ⟨rfl, hargs⟩ := hc
      refine (SimulatesOrFails.lift (lookup_simulates hs' name)).bind fun ρ₁ o o' _ ho => ?_
      cases ho with
      | none => exact .pure hnode
      | some hv =>
          cases hv with
          | @closure kind _ _ params body body' r r' _ hr hbody =>
              cases kind with
              | function => exact .pure hnode
              | macroRule =>
                  -- The arguments are counted on both sides before anything is evaluated.
                  dsimp only
                  rw [hargs.length_eq]
                  split
                  · refine (SimulatesOrFails.lift (quoteAll_simulates hargs)).bind
                      fun ρ₂ qs qs' hle₂ hqs => ?_
                    have hbody₂ := evalClosureBody_simulates heval (hle₂.1 _ _ hr) params hbody hqs
                    refine (SimulatesOrFails.lift hbody₂).bind fun ρ₃ v v' _ hv => ?_
                    have htree := orFails_quotedTree name hv
                    generalize quotedTree name v = t, quotedTree name v' = t' at htree ⊢
                    cases htree with
                    | ok htree => exact .pure htree
                    | error misuse => exact .throw misuse
                  · exact .throw _
          | _ => exact .pure hnode

/-! ### Programs -/

/-- What expansion hands back is a program on both sides. -/
theorem programOf_simulates {node node' : Node} (h : Alike .telling node.part node'.part) :
    Simulates ρ (programOf node) (programOf node') fun _ => ProgramsAlike := by
  cases h.nodes with
  | program hp => exact .pure hp
  | _ => exact .stop _

/-- Alike programs expand to alike programs. -/
theorem expandProgram_simulates (fuel : Nat) (hs : ρ.scope s s') {program program' : Program}
    (h : ProgramsAlike program program') :
    SimulatesOrFails ρ (expandProgram fuel s program) (expandProgram fuel s' program')
      fun _ => ProgramsAlike := by
  have hpass := Node.transformM_coupled (expandCall_couples (evalExpr_simulates fuel) hs)
    telling_names (.program program) (.program program') h
  exact (hpass ρ (le_refl ρ)).bind fun _ _ _ _ hnode => .lift (programOf_simulates hnode)

/-! ### Expansion without macros -/

/-- What is answered without failing and without changing the heap,
beside what is computed without any heap. -/
def unchanged (ε : Type) (heap : Heap) : Coupling (ExceptT ε EvalM) Id where
  relates x b P := ∃ a, x.run heap = .ok (.ok a, heap) ∧ P a b
  pure h := ⟨_, rfl, h⟩
  bind hx hnext := by
    obtain ⟨a, hx, hab⟩ := hx
    obtain ⟨c, hc, hcd⟩ := hnext a _ hab
    exact ⟨c, (bind_run_of_ok hx).trans hc, hcd⟩

variable {heap : Heap}

/-- A node is left as it is if no name is bound. -/
theorem expandCall_run_of_unbound (eval : Evaluator) (h : ∀ name, heap.lookup s name = none)
    (node : Node) : (expandCall eval s node).run heap = .ok (.ok node, heap) := by
  unfold expandCall
  cases namedCall? node with
  | none => rfl
  | some call =>
      have hlookup : EvalM.lookup s call.1 heap = .ok (none, heap) :=
        congrArg (fun found => Except.ok (found, heap)) (h call.1)
      exact bind_run_of_ok (lift_run hlookup)

/-- A program is its own expansion if no name is bound. -/
theorem expandProgram_of_unbound (fuel : Nat) (h : ∀ name, heap.lookup s name = none)
    (program : Program) : (expandProgram fuel s program).run heap = .ok (.ok program, heap) := by
  -- The pass is compared with one that does nothing, and needs no heap for it.
  let identity : Node → Id Node := pure
  have hcouples : Couples (unchanged Misuse heap) (fun _ => Eq) (expandCall (evalExpr fuel) s)
      identity := fun node node' hnode =>
    ⟨node, expandCall_run_of_unbound _ h node, hnode⟩
  have hrefl : ∀ role t, (fun (_ : TokenRole) => @Eq Token) role t t := fun _ _ => rfl
  obtain ⟨node, hrun, hnode⟩ := Node.transformM_coupled hcouples
    (fun _ => Expr.alike_refl hrefl _) (.program program) (.program program)
    (body_alike_refl hrefl program)
  have hidentity : Node.transformM identity (.program program) = pure (.program program) := by
    simp [identity, Node.transformM, Node.visitParts, visitBody_pure]
  rw [hidentity] at hnode
  obtain rfl : node = .program program := Node.eq_of_alike hnode
  exact bind_run_of_ok hrun

end QuoteScript
