import Z80.Main
import Z80.Proofs.MemoryBlocks
import Z80.Proofs.WordValues
import Z80.Proofs.TableEntries
import Z80.Proofs.InstructionMeaning
import Z80.Proofs.StepAgreement
import Z80.Proofs.StepFrame
import Z80.Proofs.IndexPages
import Z80.Proofs.BlockCopies
import Z80.Proofs.StatementLength
import Z80.Proofs.SourceReading
import Z80.Proofs.TwoPasses
import Z80.Proofs.PlacedBytes
import Z80.Proofs.AssembledMeaning
import Z80.Proofs.WrittenNumbers
import Z80.Proofs.QuotedText
import Z80.Proofs.LineSyntax
import Z80.Proofs.WrittenLines
import Z80.Proofs.ListedOperands
import Z80.Proofs.ListingRoundTrip
import Z80.Proofs.LosslessTable
import Z80.Proofs.Runs
import Z80.Proofs.ExecutionRecord
import Z80.Proofs.BreakpointHistories
import Z80.Proofs.Snapshots
import Z80.Proofs.ImageLayout
import Z80.Proofs.BlockSearches
import Z80.Proofs.RelativeJumps
import Z80.Proofs.BinaryArithmetic
import Z80.Proofs.DecimalArithmetic
import Z80.Proofs.WordArithmetic
import Z80.Proofs.NumberThreads
import Z80.Proofs.CellWalks
import Z80.Proofs.ShiftChains
import Z80.Proofs.IdealStack
import Z80.Proofs.SingleSteps
import Z80.Proofs.FaultReports
import Z80.Proofs.PatchComposition
import Z80.Proofs.ExpressionValues
import Z80.Proofs.StoredBytes
import Z80.Proofs.LetterCase
import Z80.Proofs.RecasedStatements
import Z80.Proofs.RecasedPrograms
import Z80.Proofs.NumberForms
import Z80.Proofs.ArgumentOrder
