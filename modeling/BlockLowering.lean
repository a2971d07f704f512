import BlockLowering.Main
import BlockLowering.Session
import BlockLowering.Proofs.ExpressionMeaning
import BlockLowering.Proofs.LoweredNames
import BlockLowering.Proofs.MachineRuns
import BlockLowering.Proofs.BodyMeaning
import BlockLowering.Proofs.StepComposition
import BlockLowering.Proofs.LoweredShape
import BlockLowering.Proofs.ProgramValidity
import BlockLowering.Proofs.ExecutedInstructions
import BlockLowering.Proofs.RuntimeGuards
import BlockLowering.Proofs.SessionNames
import BlockLowering.Proofs.CounterOverflow
import BlockLowering.Proofs.TemporaryReads
import BlockLowering.Proofs.TemporaryRuns
import BlockLowering.Proofs.SingleAssignment
import BlockLowering.Proofs.Renumbering
import BlockLowering.Proofs.SeedIndependence
import BlockLowering.Proofs.EvaluationOrder
import BlockLowering.Proofs.OperandReading
import BlockLowering.Proofs.NameCapture
import BlockLowering.Proofs.SafeControl
import BlockLowering.Proofs.PlainTrees
import BlockLowering.Proofs.RoundTrips
import BlockLowering.Proofs.DocumentRoundTrip
import BlockLowering.Proofs.DecodedDepth
import BlockLowering.Proofs.LoweredDepth
import BlockLowering.Proofs.PrintedText
import BlockLowering.Proofs.LoweredDocument
import BlockLowering.Proofs.FlattenedValues
import BlockLowering.Proofs.EffectOrder
import BlockLowering.Proofs.ProgramBodies
import BlockLowering.Proofs.CodePieces
import BlockLowering.Proofs.CallCounts
import BlockLowering.Proofs.PlacedChecks
import BlockLowering.Proofs.ReportedViolations
import BlockLowering.Proofs.StructuredFlow
import BlockLowering.Proofs.FilledAllocations
import BlockLowering.Proofs.NeededNames
import BlockLowering.Proofs.NameAccounts
import BlockLowering.Proofs.AppendedBlocks
import BlockLowering.Proofs.ClassLayouts
import BlockLowering.Proofs.ClassOrder
import BlockLowering.Proofs.LoweredNumbers
import BlockLowering.Proofs.NumberTexts
import BlockLowering.Proofs.IntegerLiterals
import BlockLowering.Proofs.SourcePlaces
import BlockLowering.Proofs.ReportedPlaces
import BlockLowering.Proofs.ListedLines
import BlockLowering.Proofs.LoggedBodies
import BlockLowering.Proofs.CommandWords
import BlockLowering.Proofs.FileLaws
import BlockLowering.Proofs.SettingsTexts
import BlockLowering.Proofs.CommandOutcomes
import BlockLowering.Proofs.MethodDispatch
