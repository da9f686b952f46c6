import DigitalWallet.Lib.Proc
import DigitalWallet.Lib.Run
import DigitalWallet.Lib.Hoare
import DigitalWallet.Lib.Rely
import DigitalWallet.Lib.Discipline
import DigitalWallet.Lib.CString
import DigitalWallet.Lib.CppString
import DigitalWallet.Lib.CppNumeral
import DigitalWallet.Lib.FinmapSum
import DigitalWallet.Lib.Moved
import DigitalWallet.Defs.Records
import DigitalWallet.Defs.Wallet
import DigitalWallet.Defs.ServiceState
import DigitalWallet.Defs.Handlers
import DigitalWallet.Defs.System
import DigitalWallet.Defs.Server
import DigitalWallet.Defs.QueryString
import DigitalWallet.Defs.Router
import DigitalWallet.Defs.StaticFile
import DigitalWallet.Defs.Http
import DigitalWallet.Defs.FrontEnd
import DigitalWallet.Laws.Toggle
import DigitalWallet.Laws.Moves
import DigitalWallet.Laws.Invariant
import DigitalWallet.Laws.Atomicity
import DigitalWallet.Laws.Accounts
import DigitalWallet.Laws.Serve
import DigitalWallet.Laws.Conservation
import DigitalWallet.Laws.EventSourcing
import DigitalWallet.Laws.Queue
import DigitalWallet.Laws.Transfers
import DigitalWallet.Laws.Books
import DigitalWallet.Laws.Ledger
import DigitalWallet.Laws.Paths
import DigitalWallet.Laws.Holder
import DigitalWallet.Laws.Stages
import DigitalWallet.Laws.Serializable
import DigitalWallet.Laws.Events
import DigitalWallet.Laws.Overflow
import DigitalWallet.Laws.Confluence
import DigitalWallet.Laws.Pipeline
import DigitalWallet.Laws.Amounts
import DigitalWallet.Laws.Numbers
import DigitalWallet.Laws.Seed
import DigitalWallet.Laws.Progress
import DigitalWallet.Laws.Race
import DigitalWallet.Laws.Audit
import DigitalWallet.Laws.Server
import DigitalWallet.Laws.Sections
import DigitalWallet.Laws.Unique
import DigitalWallet.Laws.Files
import DigitalWallet.Laws.QueryString
import DigitalWallet.Laws.Router
import DigitalWallet.Laws.StaticFile
import DigitalWallet.Laws.RequestLine
import DigitalWallet.Laws.Reads
import DigitalWallet.Laws.FrontEnd
