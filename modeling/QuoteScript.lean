import QuoteScript.Main
import QuoteScript.Proofs.Grammar.Derivation
import QuoteScript.Proofs.Grammar.Reading
import QuoteScript.Proofs.Grammar.Ending
import QuoteScript.Proofs.Grammar.Soundness
import QuoteScript.Proofs.Grammar.Completeness
import QuoteScript.Proofs.Grammar.Parse
import QuoteScript.Proofs.Token.Lexemes
import QuoteScript.Proofs.Tree.Lexicon
import QuoteScript.Proofs.Tree.Spelling
import QuoteScript.Proofs.Tree.Reparse
import QuoteScript.Proofs.Tree.Visit
import QuoteScript.Proofs.Value.Stored
import QuoteScript.Proofs.Eval.Logic
import QuoteScript.Proofs.Eval.Stored
import QuoteScript.Proofs.Expansion.Stored
import QuoteScript.Proofs.Grammar.WellFormed
import QuoteScript.Proofs.Session.Reachable
import QuoteScript.Proofs.Session.Unwinding
import QuoteScript.Proofs.Session.Source
import QuoteScript.Proofs.Tree.Alike
import QuoteScript.Proofs.Tree.Coupling
import QuoteScript.Proofs.Eval.Fuel
import QuoteScript.Proofs.Eval.Context
import QuoteScript.Proofs.Eval.Writes
import QuoteScript.Proofs.Expansion.Writes
import QuoteScript.Proofs.Session.Effects
import QuoteScript.Proofs.Grammar.Telling
import QuoteScript.Proofs.Grammar.Locality
import QuoteScript.Proofs.Grammar.Braces
import QuoteScript.Proofs.Grammar.Synchronization
import QuoteScript.Proofs.Grammar.EndOfText
import QuoteScript.Proofs.Value.Correspondence
import QuoteScript.Proofs.Scope.Correspondence
import QuoteScript.Proofs.Eval.Simulation
import QuoteScript.Proofs.Expansion.Simulation
import QuoteScript.Proofs.Expansion.Fuel
import QuoteScript.Proofs.Session.Simulation
import QuoteScript.Proofs.Session.Dump
import QuoteScript.Proofs.Session.Steps
import QuoteScript.Proofs.Session.Independence
import QuoteScript.Proofs.Session.Lines
import QuoteScript.Proofs.Tree.Replace
import QuoteScript.Proofs.Tree.OneLine
import QuoteScript.Proofs.Expansion.Template
import QuoteScript.Proofs.Tree.Postorder
import QuoteScript.Proofs.Value.Renaming
import QuoteScript.Proofs.Eval.Tandem
import QuoteScript.Proofs.Expansion.Tandem
import QuoteScript.Proofs.Token.Slices
import QuoteScript.Proofs.Session.Defects
import QuoteScript.Proofs.Eval.Lockstep
import QuoteScript.Proofs.Scope.Detachment
import QuoteScript.Proofs.Session.FunctionBody
import QuoteScript.Proofs.Scope.Renaming
import QuoteScript.Proofs.Session.Growth
import QuoteScript.Proofs.Expansion.Recursion
import QuoteScript.Proofs.Session.Composition
import QuoteScript.Proofs.Scope.Relabelling
import QuoteScript.Proofs.Session.Hoisting
import QuoteScript.Proofs.Tree.Fitting
import QuoteScript.Proofs.Eval.Splicing
import QuoteScript.Proofs.Session.Quoting
import QuoteScript.Proofs.Expansion.OnePass
import QuoteScript.Proofs.Token.Order
import QuoteScript.Proofs.Tree.Tokens
import QuoteScript.Proofs.Grammar.Continuation
import QuoteScript.Proofs.Grammar.MalformedLet
import QuoteScript.Proofs.Grammar.Accounting
import QuoteScript.Proofs.Grammar.SourceOrder
import QuoteScript.Proofs.Grammar.BlockRecovery
import QuoteScript.Proofs.Token.Patterns
import QuoteScript.Proofs.Token.Tiling
import QuoteScript.Proofs.Token.Layout
import QuoteScript.Proofs.Grammar.Places
import QuoteScript.Proofs.Session.Layout
import QuoteScript.Proofs.Eval.Integers
import QuoteScript.Proofs.Eval.OperatorTree
import QuoteScript.Proofs.Value.Entries
import QuoteScript.Proofs.Value.DistinctKeys
import QuoteScript.Proofs.Eval.Inherited
import QuoteScript.Proofs.Session.Inherited
import QuoteScript.Proofs.Session.Dicts
import QuoteScript.Proofs.Tree.Synthesis
import QuoteScript.Proofs.Session.Identity
import QuoteScript.Proofs.Value.Equality
import QuoteScript.Proofs.Tree.Arithmetic
import QuoteScript.Proofs.Session.Arithmetic
import QuoteScript.Proofs.Value.FunctionFree
import QuoteScript.Proofs.Eval.Descent
import QuoteScript.Proofs.Eval.Nesting
import QuoteScript.Proofs.Eval.Settling
import QuoteScript.Proofs.Session.Termination
import QuoteScript.Proofs.Scope.Chain
import QuoteScript.Proofs.Session.Chains
import QuoteScript.Proofs.Expansion.FirstMisuse
import QuoteScript.Proofs.Session.Removal
