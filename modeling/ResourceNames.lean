import ResourceNames.Java.Context
import ResourceNames.Java.Diagnostics
import ResourceNames.Java.Walk
import ResourceNames.Main
import ResourceNames.Proofs.Acceptance
import ResourceNames.Proofs.Accessors
import ResourceNames.Proofs.Beginnings
import ResourceNames.Proofs.Bounds
import ResourceNames.Proofs.Completeness
import ResourceNames.Proofs.Configurations
import ResourceNames.Proofs.Decisions
import ResourceNames.Proofs.Derivations
import ResourceNames.Proofs.Edits
import ResourceNames.Proofs.EndOfInput
import ResourceNames.Proofs.ErrorFree
import ResourceNames.Proofs.FaultedWalks
import ResourceNames.Proofs.Forms
import ResourceNames.Proofs.FoundFiles
import ResourceNames.Proofs.LongestWords
import ResourceNames.Proofs.Lookahead
import ResourceNames.Proofs.Neighbours
import ResourceNames.Proofs.NodeSpans
import ResourceNames.Proofs.Nodes
import ResourceNames.Proofs.Numerals
import ResourceNames.Proofs.OnDemand
import ResourceNames.Proofs.OperandEnds
import ResourceNames.Proofs.OperatorLevels
import ResourceNames.Proofs.Outlines
import ResourceNames.Proofs.Partition
import ResourceNames.Proofs.Passes
import ResourceNames.Proofs.Places
import ResourceNames.Proofs.Points
import ResourceNames.Proofs.Positions
import ResourceNames.Proofs.Precedence
import ResourceNames.Proofs.Predictions
import ResourceNames.Proofs.PrintedNumbers
import ResourceNames.Proofs.Progress
import ResourceNames.Proofs.Reaches
import ResourceNames.Proofs.ReadSamples
import ResourceNames.Proofs.Reading
import ResourceNames.Proofs.Renaming
import ResourceNames.Proofs.RepeatedWalks
import ResourceNames.Proofs.ResourceTable
import ResourceNames.Proofs.Restoration
import ResourceNames.Proofs.RestoredText
import ResourceNames.Proofs.Rests
import ResourceNames.Proofs.Rivals
import ResourceNames.Proofs.Runs
import ResourceNames.Proofs.SampleConsumers
import ResourceNames.Proofs.Sessions
import ResourceNames.Proofs.Shapes
import ResourceNames.Proofs.SharedTokens
import ResourceNames.Proofs.SignedNumbers
import ResourceNames.Proofs.SpreadReports
import ResourceNames.Proofs.Steps
import ResourceNames.Proofs.Supply
import ResourceNames.Proofs.Surroundings
import ResourceNames.Proofs.Termination
import ResourceNames.Proofs.TokenOrder
import ResourceNames.Proofs.Units
import ResourceNames.Proofs.VisitLists
import ResourceNames.Proofs.Walks
import ResourceNames.Proofs.Words
import ResourceNames.Proofs.Work
import ResourceNames.Sample.Fragments
import ResourceNames.Sample.Survey
import ResourceNames.Session
import ResourceNames.Text.Newlines
import ResourceNames.Text.Numeral
import ResourceNames.Text.Utf8
