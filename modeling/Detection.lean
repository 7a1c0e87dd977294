import Detection.Main
import Detection.Proofs.AqlLiteral
import Detection.Proofs.HistoryLog
import Detection.Proofs.LogScaleRegex
import Detection.Proofs.QuotedLiterals
import Detection.Proofs.RuleIdentity
import Detection.Proofs.SigmaPolarity
import Detection.Proofs.SigmaSelections
import Detection.Service.Settings
import Detection.Proofs.PatternNotations
import Detection.Proofs.RegexLiterals
import Detection.Proofs.CommentedAnnex
import Detection.Proofs.ConditionKept
import Detection.Proofs.SelectorFields
import Detection.Proofs.DefaultMapping
import Detection.Proofs.NativeLists
import Detection.Proofs.AxonSearches
import Detection.Proofs.IndicatorExtraction
import Detection.Proofs.DelimitedNegations
import Detection.Proofs.SplPipeline
import Detection.Proofs.Migrations
import Detection.Proofs.RuleFiles
import Detection.Proofs.CleanNormalForm
import Detection.Proofs.TextCovered
