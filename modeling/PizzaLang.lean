import PizzaLang.Command.Report
import PizzaLang.Disk.FileTree
import PizzaLang.Main
import PizzaLang.Proofs.Meaning
import PizzaLang.Proofs.Elaboration
import PizzaLang.Proofs.WellFormed
import PizzaLang.Proofs.Expansion
import PizzaLang.Proofs.Reading
import PizzaLang.Proofs.Derivation
import PizzaLang.Proofs.Recognition
import PizzaLang.Proofs.Construction
import PizzaLang.Proofs.Likeness
import PizzaLang.Proofs.Grammar
import PizzaLang.Proofs.PathEquality
import PizzaLang.Proofs.Relocation
import PizzaLang.Proofs.SingleVisit
import PizzaLang.Proofs.Spelling
import PizzaLang.Proofs.Relexing
import PizzaLang.Proofs.Failure
import PizzaLang.Proofs.Shape
import PizzaLang.Proofs.Confinement
import PizzaLang.Proofs.NoMisfit
import PizzaLang.Proofs.Cycles
import PizzaLang.Proofs.SelfInclusion
import PizzaLang.Proofs.LibraryLookup
import PizzaLang.Proofs.Acceptance
import PizzaLang.Proofs.Blindness
import PizzaLang.Proofs.StaticSemantics
import PizzaLang.Proofs.Tiling
import PizzaLang.Proofs.Nesting
import PizzaLang.Proofs.Lookahead
import PizzaLang.Proofs.Viability
import PizzaLang.Proofs.Repositioning
import PizzaLang.Proofs.Layout
import PizzaLang.Proofs.Independence
import PizzaLang.Proofs.Equality
import PizzaLang.Proofs.Exchange
import PizzaLang.Proofs.Respelling
import PizzaLang.Proofs.Placement
import PizzaLang.Proofs.Provenance
import PizzaLang.Proofs.Unrecognized
import PizzaLang.Proofs.Concatenation
import PizzaLang.Proofs.Arithmetic
import PizzaLang.Proofs.Formulas
import PizzaLang.Proofs.Quantities
import PizzaLang.Proofs.InstructionOrder
import PizzaLang.Proofs.Histories
import PizzaLang.Proofs.Repetition
import PizzaLang.Proofs.Resumption
import PizzaLang.Proofs.ForestShape
import PizzaLang.Proofs.NearestNodes
import PizzaLang.Proofs.Printing
