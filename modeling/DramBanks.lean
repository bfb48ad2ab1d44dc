import DramBanks.Classifier.Operation
import DramBanks.Kernel.Scripted
import DramBanks.Main
import DramBanks.Proofs.Mask.Recovery
import DramBanks.Proofs.Mask.Soundness
import DramBanks.Proofs.Mask.Schedules
import DramBanks.Proofs.Mask.EarlyExit
import DramBanks.Proofs.Mask.Tolerance
import DramBanks.Proofs.BankMap
import DramBanks.Proofs.ReportedParities
import DramBanks.Proofs.RelevantBits
import DramBanks.Proofs.Mask.Rearrangement
import DramBanks.Proofs.Classifier.Repair
import DramBanks.Proofs.Classifier.Session
import DramBanks.Proofs.Classifier.Blocks
import DramBanks.Proofs.Classifier.Holding
import DramBanks.Proofs.Classifier.Conservation
import DramBanks.Proofs.Classifier.Majority
import DramBanks.Proofs.Classifier.Resizing
import DramBanks.Proofs.Classifier.Region
import DramBanks.Proofs.Classifier.Refilling
import DramBanks.Proofs.Classifier.Undoing
import DramBanks.Proofs.Classifier.Stepping
import DramBanks.Proofs.Classifier.Halving
import DramBanks.Proofs.FixedSize
import DramBanks.Proofs.Classifier.Runs
import DramBanks.Proofs.Classifier.Detection
import DramBanks.Proofs.Classifier.MaskDetection
import DramBanks.Proofs.Classifier.Containment
import DramBanks.Proofs.Classifier.Rescaling
import DramBanks.Proofs.Classifier.Tiling
import DramBanks.Proofs.Classifier.Floor
import DramBanks.Proofs.Calibration.Gap
import DramBanks.Proofs.Calibration.Separation
import DramBanks.Proofs.Safety
import DramBanks.Proofs.Allocator.Transparent
import DramBanks.Proofs.Allocator.HugeFile
import DramBanks.Proofs.Calibration.Offset
import DramBanks.Proofs.Calibration.Vote
import DramBanks.Proofs.Settings.Layering
import DramBanks.Proofs.Report
