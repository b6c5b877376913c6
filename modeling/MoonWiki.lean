import MoonWiki.EditRoundTrip
import MoonWiki.SocketWrite
import MoonWiki.RequestFraming
import MoonWiki.WikiWord
import MoonWiki.OpenedFiles
import MoonWiki.Server
import MoonWiki.SavedFiles
import MoonWiki.ServedFiles
import MoonWiki.SaveThenGet
import MoonWiki.LuaErrors
import MoonWiki.ResponseHeader
import MoonWiki.RenderHistory
import MoonWiki.WikiExporter
import MoonWiki.ReverseLinks
import MoonWiki.LiveLinks
import MoonWiki.ExportLinks
import MoonWiki.RequestMarkup
import MoonWiki.Lua.Passes
import MoonWiki.PluralLinks
import MoonWiki.SearchText
import MoonWiki.ListNesting
import MoonWiki.PlainLines
import MoonWiki.WordLinks
import MoonWiki.Escaping
import MoonWiki.LinePatterns
import MoonWiki.RawTags
import MoonWiki.LinkLabels
import MoonWiki.BlockQuotes
import MoonWiki.PercentVariables
import MoonWiki.EmphasizedWords
import MoonWiki.PageListings
import MoonWiki.RawFiles
import MoonWiki.HeadRequests
import MoonWiki.BufferTable
import MoonWiki.FindFiles
import MoonWiki.CommandLine
import MoonWiki.ClassSystem
import MoonWiki.NumberedLists
import MoonWiki.EndOfPage
import MoonWiki.RequestWords
import MoonWiki.HeaderLines
import MoonWiki.StoreRuns
import MoonWiki.TableSort
import MoonWiki.SentPages
import MoonWiki.PageTags
