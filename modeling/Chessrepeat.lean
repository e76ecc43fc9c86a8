import Chessrepeat.Lib.Run
import Chessrepeat.Store.Lemmas.Closed
import Chessrepeat.Api.Chapter
import Chessrepeat.Lib.TokenBucket
import Chessrepeat.Lib.MergeTree
import Chessrepeat.Explorer.Theorems
import Chessrepeat.Ratelimit.Theorems
import Chessrepeat.Auth.Theorems
import Chessrepeat.Api.Lemmas.Authorization
import Chessrepeat.Api.Lemmas.Panics
import Chessrepeat.Api.Theorems
import Chessrepeat.Store.Lemmas.Order
import Chessrepeat.Lib.Admission
import Chessrepeat.Store.Lemmas.References
import Chessrepeat.Store.Theorems
import Chessrepeat.Ws.Lemmas.Delivery
import Chessrepeat.Ws.Lemmas.Registry
import Chessrepeat.Ws.Lemmas.Routing
import Chessrepeat.Ws.Lemmas.Answers
import Chessrepeat.Ws.Theorems
import Chessrepeat.Client.Theorems
import Chessrepeat.Room.Lemmas.Net
import Chessrepeat.Client.Lemmas.Edits
import Chessrepeat.Client.Lemmas.Counters
import Chessrepeat.Client.Lemmas.Loaders
import Chessrepeat.Room.Lemmas.Comments
import Chessrepeat.Room.Theorems
import Chessrepeat.Store.Lemmas.Rebuild
import Chessrepeat.Lib.TreeOp
import Chessrepeat.Room.Lemmas.Moves
import Chessrepeat.Room.Lemmas.Backup
import Chessrepeat.Client.Lemmas.Durable
import Chessrepeat.Scripts.Theorems
import Chessrepeat.Components.Theorems
import Chessrepeat.Site.Theorems
import Chessrepeat.Hooks.Theorems
import Chessrepeat.Hooks.Link
