import GridCss.Main
import GridCss.Proofs.CoupledRuns
import GridCss.Proofs.BuiltinFunctions
import GridCss.Proofs.Memoization
import GridCss.Proofs.FiledRules
import GridCss.Proofs.Visits
import GridCss.Proofs.CellStyles
import GridCss.Proofs.References
import GridCss.Proofs.KeyframesCopies
import GridCss.Proofs.KeyframesNames
import GridCss.Proofs.KeyframesBodies
import GridCss.Proofs.RepeatedRuns
import GridCss.Proofs.BlockNumbers
import GridCss.Proofs.HostBlocks
import GridCss.Proofs.Concatenation
import GridCss.Proofs.ReadBack
import GridCss.Proofs.FinalFaults
import GridCss.Proofs.TidySources
import GridCss.Proofs.Completions
import GridCss.Proofs.Nesting
import GridCss.Proofs.UsedFeatures
import GridCss.Proofs.CellSelectors
import GridCss.Proofs.FaultCauses
import GridCss.Proofs.BracketedText
import GridCss.Proofs.ScopedSelectors
import GridCss.Proofs.SingleLines
import GridCss.Proofs.GroupLines
import GridCss.Proofs.TextWords
import GridCss.Proofs.BracketedWords
import GridCss.Proofs.RenamedLayers
import GridCss.Proofs.ArithmeticTokens
import GridCss.Proofs.ArithmeticGrammar
import GridCss.Proofs.NumericText
import GridCss.Proofs.NumberCoercion
import GridCss.Proofs.IndexedSheets
import GridCss.Proofs.BoundedMemo
import GridCss.Proofs.UnknownNames
import GridCss.Proofs.GridTexts
import GridCss.Proofs.QuotedArguments
import GridCss.Proofs.BracketGroups
import GridCss.Proofs.ParityHalves
import GridCss.Proofs.PrintableItems
