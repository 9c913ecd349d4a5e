import QubitLab.Archive.Timestamp
import QubitLab.Console.Distortion
import QubitLab.Console.Microcode
import QubitLab.Console.Sequence
import QubitLab.Console.Spectrum
import QubitLab.Proofs.BiasTee
import QubitLab.Proofs.ButterflyCoefficients
import QubitLab.Proofs.ChannelBounds
import QubitLab.Proofs.CharacterPrograms
import QubitLab.Proofs.ChevronBlocks
import QubitLab.Proofs.CircuitSections
import QubitLab.Proofs.Codewords
import QubitLab.Proofs.ConfigDumps
import QubitLab.Proofs.Declarations
import QubitLab.Proofs.DivisionRounds
import QubitLab.Proofs.FlatHistograms
import QubitLab.Proofs.FluxNumbering
import QubitLab.Proofs.HardMeasurements
import QubitLab.Proofs.InverseFilters
import QubitLab.Proofs.LineExpansion
import QubitLab.Proofs.MirroredDips
import QubitLab.Proofs.OperandRanges
import QubitLab.Proofs.OutcomeRuns
import QubitLab.Proofs.OutputOwners
import QubitLab.Proofs.PeakRanges
import QubitLab.Proofs.Precompensation
import QubitLab.Proofs.ProgramTime
import QubitLab.Proofs.QubitTargets
import QubitLab.Proofs.RadixTexts
import QubitLab.Proofs.SequenceTables
import QubitLab.Proofs.SoftMeasurements
import QubitLab.Proofs.SortedGrids
import QubitLab.Proofs.StoreUpdates
import QubitLab.Proofs.StoredRecords
import QubitLab.Proofs.TimeScaling
import QubitLab.Proofs.WaitNormalForm
import QubitLab.Session.Script
