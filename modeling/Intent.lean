import Intent.Library.Gen
import Intent.Library.Simulation
import Intent.Library.Scan
import Intent.Library.Tiling
import Intent.Library.Run
import Intent.Library.Chain
import Intent.Library.Layers
import Intent.Library.Positional
import Intent.Library.Bootstring
import Intent.Library.Forest
import Intent.Library.RefCount
import Intent.Library.SearchTree
import Intent.Library.SharedPrefixes
import Intent.Py.Lex
import Intent.Py.LexBreak
import Intent.Py.LexMode
import Intent.Py.LexLines
import Intent.Py.LexShape
import Intent.Py.LexSpans
import Intent.Py.LexSegments
import Intent.Py.LexLineSegments
import Intent.Py.LexHypertext
import Intent.Py.LexPositions
import Intent.Py.LexIndent
import Intent.Py.Parse
import Intent.Py.CheckedLines
import Intent.Py.ParseLines
import Intent.Py.Document
import Intent.Old.Unicode
import Intent.Old.UnicodeText
import Intent.Old.UnicodeReads
import Intent.Old.Lexer
import Intent.Old.EscapeSequence
import Intent.Old.EscapeDecode
import Intent.Old.BufferCalls
import Intent.Old.LexerScan
import Intent.Old.ScanNumber
import Intent.Old.LexerSpans
import Intent.Old.LexerIndent
import Intent.Old.LexerView
import Intent.Old.LexerQuote
import Intent.Old.LexerOperators
import Intent.Old.LexerLines
import Intent.Old.LexerStrings
import Intent.Old.LineBreaks
import Intent.Old.LexerBreaks
import Intent.Old.LexerBreaksRun
import Intent.Old.LexerLineNumbers
import Intent.Old.LexerFirst
import Intent.Old.LexerWrap
import Intent.Old.NumericLiteral
import Intent.Old.DigitScanners
import Intent.Old.LexerNumbers
import Intent.Old.LooseNumber
import Intent.Old.LiteralText
import Intent.Old.AnsiColorPalette
import Intent.Old.PaletteMaps
import Intent.Old.PaletteFill
import Intent.Old.PaletteWalk
import Intent.Old.PaletteLookup
import Intent.Old.PaletteSafety
import Intent.Old.BaseXEncode
import Intent.Old.Interp
import Intent.Old.InterpArgs
import Intent.Old.LineIterator
import Intent.Old.NormalizeIdentifier
import Intent.Old.Punycode
import Intent.Old.PunycodeDigits
import Intent.Old.PunycodeInsertions
import Intent.Old.PunycodeEncode
import Intent.Old.PunycodeRound
import Intent.Old.PunycodeRoom
import Intent.Old.WrapLines
import Intent.Old.WrapLinesRound
import Intent.Old.WrapLinesRun
import Intent.Old.WrapLinesBreaks
import Intent.Old.WrapLinesColumns
import Intent.Old.HeaderOrder
import Intent.Old.Headers
import Intent.Old.HeadersHeap
import Intent.Old.HeadersRun
import Intent.Old.HeadersIndex
import Intent.Old.HeadersSearch
import Intent.Old.HeadersCount
import Intent.Old.HeadersAdd
import Intent.Old.CurlResponse
import Intent.Old.CurlSession
import Intent.Old.CurlSessionIntact
import Intent.Old.CurlHandles
import Intent.Old.CurlHandlesHolders
import Intent.Old.CurlHandlesSessions
import Intent.Old.CurlHandlesRun
import Intent.Old.HttpMethod
import Intent.Old.AstNode
import Intent.Old.AstHeap
import Intent.Old.Cmdline
import Intent.Old.NumericRange
import Intent.Old.NumericRangeExact
import Intent.Old.AssignableClock
import Intent.Old.Stopwatch
import Intent.Py.Space
