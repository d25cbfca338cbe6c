import DocRefs.Main
import DocRefs.Plugin
import DocRefs.Proofs.Weave
import DocRefs.Proofs.Comments
import DocRefs.Proofs.Identifiers
import DocRefs.Proofs.References
import DocRefs.Proofs.Decomposition
import DocRefs.Proofs.Insertion
import DocRefs.Proofs.LateFiles
import DocRefs.Proofs.OrderIndependence
import DocRefs.Proofs.Survival
import DocRefs.Proofs.Coherence
import DocRefs.Proofs.Hosting
import DocRefs.Proofs.Stability
import DocRefs.Proofs.Overwriting
import DocRefs.Proofs.Idempotence
import DocRefs.Proofs.OutputDirectory
import DocRefs.Proofs.LineEndings
import DocRefs.Proofs.RunFailures
import DocRefs.Proofs.ModuleReport
import DocRefs.Proofs.PreparedTexts
import DocRefs.Proofs.PhaseOrder
import DocRefs.Proofs.EligibleWords
import DocRefs.Proofs.ReferenceGrammar
import DocRefs.Proofs.LinkedTexts
import DocRefs.Proofs.TagPlaces
import DocRefs.Proofs.Declarations
import DocRefs.Proofs.PathMemo
import DocRefs.Proofs.ImportTargets
import DocRefs.Proofs.SpelledOut
import DocRefs.Proofs.SourceRoots
import DocRefs.Proofs.RootPrefixes
import DocRefs.Proofs.Discovery
import DocRefs.Proofs.ReadBack
import DocRefs.Proofs.SettingsTables
import DocRefs.Proofs.ConfigFiles
import DocRefs.Proofs.LoadFailures
import DocRefs.Proofs.Splicing
import DocRefs.Proofs.Rescanning
import DocRefs.Proofs.WrittenRoots
import DocRefs.Proofs.LoadedRoots
