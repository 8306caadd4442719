import Script.Report
import Script.Proofs.Observer
import Script.Proofs.Readable
import Script.Proofs.TraceIndependence
import Script.Proofs.History
import Script.Proofs.SilentRun
import Script.Proofs.AbruptFailure
import Script.Proofs.Upkeep
import Script.Proofs.ArrayGraph
import Script.Proofs.AcyclicSteps
import Script.Proofs.AcyclicRun
import Script.Proofs.Holdings
import Script.Proofs.Logged
import Script.Proofs.Sightings
import Script.Proofs.Unwinding
import Script.Proofs.UnwindingRun
import Script.Proofs.Grammar
import Script.Proofs.PhraseLanguage
import Script.Proofs.Continuation
import Script.Proofs.Lexing
import Script.Proofs.Acceptance
import Script.Proofs.WrittenLiterals
import Script.Proofs.Relocation
import Script.Proofs.Printing
import Script.Proofs.RoundTrip
import Script.Proofs.Utf8Decoding
import Script.Proofs.CanonicalText
import Script.Proofs.ScopedUpkeep
import Script.Proofs.Narrative
import Script.Proofs.Maintenance
import Script.Proofs.Effects
import Script.Proofs.Oversight
import Script.Proofs.Traits
import Script.Proofs.IntegerRange
import Script.Proofs.CanonicalRun
import Script.Proofs.ArrayFrames
import Script.Proofs.ScopeNames
import Script.Proofs.ScopePaths
import Script.Proofs.Forest
import Script.Proofs.ScopeTree
import Script.Proofs.WordReading
import Script.Proofs.ReaderLoops
import Script.Proofs.LineEnds
import Script.Proofs.ReservedWords
import Script.Proofs.DeclaredNames
import Script.Proofs.Raising
import Script.Proofs.RaisingRun
import Script.Proofs.Halting
import Script.Proofs.HaltingRun
import Script.Proofs.Nameless
import Script.Proofs.Twins
import Script.Proofs.LocalNames
import Script.Proofs.Simulation
import Script.Proofs.CodeSimulation
import Script.Proofs.Renaming
import Script.Proofs.RenamingRun
import Script.Proofs.UnreadInput
import Script.Proofs.ExtraScopes
import Script.Proofs.ExtraScopesRun
import Script.Proofs.TokenReading
import Script.Proofs.EarlierStatements
import Script.Proofs.Respacing
import Script.Proofs.LexemeEnds
import Script.Proofs.Concatenation
import Script.Proofs.FirstError
import Script.Proofs.CloseLayout
import Script.Proofs.Arithmetic
import Script.Proofs.DataRoundTrip
import Script.Proofs.Indentation
import Script.Proofs.NodePositions
import Script.Proofs.Blame
import Script.Proofs.BlameRun
import Script.Proofs.Sequences
import Script.Proofs.StringEncodings
import Script.Proofs.Derivations
import Script.Proofs.SourcePositions
import Script.Proofs.LineReading
import Script.Proofs.Refusals
import Script.Proofs.RuleViolations
import Script.Proofs.SourceForm
import Script.Proofs.DoublingLoop
import Script.Proofs.Division
import Script.Proofs.Rendering
import Script.Proofs.Unbounded
import Script.Proofs.StraightRun
