import Freestanding.Main
import Freestanding.Proofs.ConfiguredHeader
import Freestanding.Proofs.ConfiguredNormalForm
import Freestanding.Proofs.ConfiguredText
import Freestanding.Proofs.Containment
import Freestanding.Proofs.DistinctSearches
import Freestanding.Proofs.ExactInstallation
import Freestanding.Proofs.ExtractionOutcome
import Freestanding.Proofs.FailedSearches
import Freestanding.Proofs.IncludedNames
import Freestanding.Proofs.InstallationLog
import Freestanding.Proofs.InstalledFiles
import Freestanding.Proofs.InterruptedInstallation
import Freestanding.Proofs.LeastMatch
import Freestanding.Proofs.LineEndings
import Freestanding.Proofs.LocalScanning
import Freestanding.Proofs.OneLineEvents
import Freestanding.Proofs.ProgramRun
import Freestanding.Proofs.ProvidedNames
import Freestanding.Proofs.PrunedTree
import Freestanding.Proofs.ReachedNames
import Freestanding.Proofs.RelocatedTree
import Freestanding.Proofs.RenderedNames
import Freestanding.Proofs.RepeatedExtraction
import Freestanding.Proofs.RoundByRound
import Freestanding.Proofs.RoundCount
import Freestanding.Proofs.SuccessfulInstallation
