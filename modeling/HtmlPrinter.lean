import HtmlPrinter.Proofs.Boundaries
import HtmlPrinter.Proofs.BoundedSinks
import HtmlPrinter.Proofs.EmptyText
import HtmlPrinter.Proofs.EntityNames
import HtmlPrinter.Proofs.ImpliedTags
import HtmlPrinter.Proofs.LeadingComments
import HtmlPrinter.Proofs.MapHistory
import HtmlPrinter.Proofs.NestedRoots
import HtmlPrinter.Proofs.QuoteMarks
import HtmlPrinter.Proofs.SafeText
import HtmlPrinter.Proofs.SavingOptions
import HtmlPrinter.Proofs.ScriptContent
import HtmlPrinter.Proofs.ScriptSlices
import HtmlPrinter.Proofs.SettingOrder
import HtmlPrinter.Proofs.SingleElement
import HtmlPrinter.Proofs.TableParts
import HtmlPrinter.Proofs.TagCase
import HtmlPrinter.Proofs.TagReader
import HtmlPrinter.Proofs.Unambiguous
import HtmlPrinter.Proofs.UntrustedMarkup
import HtmlPrinter.Proofs.VisibleText
import HtmlPrinter.Proofs.VoidContent
import HtmlPrinter.Render
import HtmlPrinter.Tree.Equality
