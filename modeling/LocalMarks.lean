import LocalMarks.RateLimit.Limit
import LocalMarks.RateLimit.Used
import LocalMarks.Lib.JsonText
import LocalMarks.Lib.JsonString
import LocalMarks.Lib.JsonValue
import LocalMarks.BookmarkCache.Entry
import LocalMarks.BookmarkCache.History
import LocalMarks.BookmarkCache.Interleave
import LocalMarks.BookmarkCache.Masking
import LocalMarks.Databases.Meta
import LocalMarks.Databases.Agreement
import LocalMarks.Databases.Escape
import LocalMarks.Databases.Json
import LocalMarks.Databases.Decode
import LocalMarks.Databases.Telling
import LocalMarks.Http.Request
import LocalMarks.Http.Message
import LocalMarks.Http.ReadHeaders
import LocalMarks.Http.RawMemory
import LocalMarks.Http.RequestLine
import LocalMarks.Http.InPlace
import LocalMarks.Http.Headers
import LocalMarks.Http.ErrorPage
import LocalMarks.Http.Response
import LocalMarks.Http.Auth
import LocalMarks.Http.Routes
import LocalMarks.Http.Ranges
import LocalMarks.Server.HandleClient
import LocalMarks.Server.RawBuffer
import LocalMarks.Server.KeepAlive
import LocalMarks.Server.Closing
import LocalMarks.Server.Pipeline
import LocalMarks.Marks2json.History
import LocalMarks.Marks2json.Frame
import LocalMarks.Marks2json.Override
import LocalMarks.ThreadPool.Accounting
import LocalMarks.ThreadPool.Shutdown
import LocalMarks.Server.Balance
import LocalMarks.Server.Authorized
import LocalMarks.Server.Solicited
import LocalMarks.FrontEnd.Loading
import LocalMarks.Log.Signals
import LocalMarks.Http.Transport
import LocalMarks.Http.HeadRequest
import LocalMarks.Lib.Base64
import LocalMarks.Http.Decoder
import LocalMarks.Http.Credentials
import LocalMarks.Databases.Offsets
import LocalMarks.Databases.Single
import LocalMarks.BookmarkCache.Paths
import LocalMarks.Vfs.Hash
import LocalMarks.Http.Index
import LocalMarks.HeaderCache.Date
import LocalMarks.Marks2json.RoundTrip
import LocalMarks.Marks2json.Create
import LocalMarks.Lib.Collect
import LocalMarks.Marks2json.Healthy
import LocalMarks.FrontEnd.Notes
import LocalMarks.FrontEnd.ActiveCategory
import LocalMarks.FrontEnd.SwitchDb
import LocalMarks.FrontEnd.RandomPool
import LocalMarks.FrontEnd.Keyboard
import LocalMarks.RateLimit.Grow
import LocalMarks.Vfs.Capacity
import LocalMarks.Http.UrlDecode
import LocalMarks.FrontEnd.Escape
import LocalMarks.FrontEnd.PanelTitle
import LocalMarks.FrontEnd.Pending
import LocalMarks.FrontEnd.PickRandom
import LocalMarks.Marks2json.FileHistory
import LocalMarks.Marks2json.Exported
import LocalMarks.Http.Client
import LocalMarks.Http.PathRequest
import LocalMarks.Server.Wire
import LocalMarks.Server.Framing
import LocalMarks.Server.Responses
import LocalMarks.Server.Fetch
import LocalMarks.Main.Options
import LocalMarks.BookmarkCache.Versions
import LocalMarks.FrontEnd.FetchedData
import LocalMarks.Server.DatabaseFetch
import LocalMarks.FrontEnd.Sidebar
import LocalMarks.Log.Records
import LocalMarks.FrontEnd.DatabaseSelector
import LocalMarks.Server.DatabasePick
