import Mathlib.Data.List.Sort
import Mathlib.Logic.Function.Basic
import Chessrepeat.Client.Board
import Chessrepeat.Lib.Latest
import Chessrepeat.Lib.Run

/-!
# hooks/useExplorer.ts, services/explorer.ts and services/chessdb.ts

The moves the opening explorer knows for the position on the board, and what the cloud says of each of them. Requests
are under way while the position changes.
-/

namespace Chessrepeat.Hooks

open Lib Client

/-! ## services/explorer.ts -/

structure ExplorerMove where
  san : JsString
  whiteWins : Nat
  blackWins : Nat
  draw : Nat
  deriving DecidableEq, Repr

def moveTotal (m : ExplorerMove) : Nat := m.whiteWins + m.draw + m.blackWins

/-- `split(/\s+/)` of the trimmed text. -/
def words (s : JsString) : List JsString := (s.splitOnP isTrimmed).filter (· ≠ [])

/-- The root of a chapter stores a board without the other fields. -/
def fullFen (lib : ChessLib) (fen : JsString) : JsString :=
  if 4 ≤ (words fen).length then fen
  else if (words fen).head? = some lib.initialBoardFen then lib.initialFen
  else match lib.parseFen fen with
    | none => fen
    | some setup => lib.makeFen setup

/-- What comes of a request to the explorer; a body may be null, and so may the results in it. -/
inductive ExplorerReply where
  | rejected
  | refused
  | body (data : Option (Option (List ExplorerMove)))
  deriving DecidableEq, Repr

/-- What `fetchExplorer` resolves to; `none` where it rejects. -/
def ExplorerReply.results : ExplorerReply → Option (List ExplorerMove)
  | .rejected => none
  | .refused => some []
  | .body data => some ((data.bind id).getD [])

/-! ## services/chessdb.ts -/

structure CloudEval where
  score : Int
  depth : Int
  deriving DecidableEq, Repr

def space : UInt16 := 0x20

def dash : JsString := Utf16.encode ['-']

/-- A rank with a dot for each empty square. -/
def expandRank (rank : JsString) : JsString :=
  rank.flatMap fun u => if 0x30 ≤ u ∧ u ≤ 0x39 then List.replicate (u - 0x30).toNat 0x2E else [u]

/-- The letters of the rights a rank leaves: the king's and the two rooks' names, and the letters for each side. -/
def rights (rank : JsString) (king rook kingside queenside : UInt16) : JsString :=
  if rank[4]? = some king then
    (if rank[7]? = some rook then [kingside] else []) ++ if rank[0]? = some rook then [queenside] else []
  else []

/-- `none` where the board has too few ranks and reading the last one throws. -/
def withCastling (fen : JsString) : Option JsString :=
  let parts := fen.splitOn space
  if parts.length < 3 ∨ parts[2]? ≠ some dash then some fen
  else
    let rows := ((parts.headD []).splitOn 0x2F).map expandRank
    rows[7]?.map fun white =>
      let castling := rights white 0x4B 0x52 0x4B 0x51 ++ rights (rows.headD []) 0x6B 0x72 0x6B 0x71
      [space].intercalate (parts.set 2 (if castling = [] then dash else castling))

def fenAfter (lib : ChessLib) (fen san : JsString) : Option JsString :=
  (withCastling fen).bind fun full => (lib.setUp full).bind fun pos =>
    (lib.parseSan pos san).map fun move => lib.fen (lib.play pos move)

/-- What comes of a request to chessdb. -/
inductive CloudReply where
  | rejected
  | refused
  | body (status : JsString) (score : Option Int) (depth : Int)
  deriving DecidableEq, Repr

/-- The score is that of the side to move. `none` is null. -/
def cloudEval (board : JsString) : CloudReply → Option CloudEval
  | .rejected => none
  | .refused => none
  | .body status score depth =>
      if status ≠ Utf16.encode ['o', 'k'] then none
      else score.map fun score =>
        ⟨if (board.splitOn space)[1]? = some (Utf16.encode ['w']) then score else -score, depth⟩

/-- `fetchCloudEval`, whose failures `useExplorer` catches; where there is no board nothing is asked. -/
def fetchCloudEval (lib : ChessLib) (fen san : JsString) (reply : CloudReply) : Option CloudEval :=
  match (fenAfter lib fen san).filter (· ≠ []) with
  | none => none
  | some board => cloudEval board reply

/-! ## hooks/useExplorer.ts -/

/-- How far a request has got: the stats are still to come, or the evals of these moves. -/
structure Progress where
  fetching : Bool
  evals : List JsString
  deriving DecidableEq, Repr

/-- The eval of a move is missing while it loads. -/
structure ExplorerResult where
  moves : Option (List ExplorerMove)
  error : Bool
  evals : JsString → Option (Option CloudEval)

def ExplorerResult.loading : ExplorerResult := ⟨none, false, fun _ => none⟩

/-- `deps` are those the effect ran for last, `none` while the component is not mounted. -/
structure UseExplorer where
  deps : Option (JsString × Bool)
  queries : Latest JsString Progress
  result : ExplorerResult

/-- The most played first. -/
def sortMoves (moves : List ExplorerMove) : List ExplorerMove := moves.mergeSort fun a b => moveTotal b ≤ moveTotal a

namespace UseExplorer

variable (lib : ChessLib) (s : UseExplorer)

def mounting : UseExplorer := ⟨none, Latest.empty, .loading⟩

/-- A render and its effect. -/
def render (fen : JsString) (active : Bool) : UseExplorer :=
  if s.deps = some (fen, active) then s
  else if active then ⟨some (fen, active), s.queries.issue fen ⟨true, []⟩, .loading⟩
  else { s with deps := some (fen, active), queries := s.queries.abort }

def unmount : UseExplorer := ⟨none, s.queries.abort, .loading⟩

/-- An aborted request rejects with an `AbortError`, whatever would have come of it. -/
def answered (i : Nat) (reply : ExplorerReply) : UseExplorer :=
  match s.queries.tickets[i]? with
  | none => s
  | some t =>
      if !t.stage.fetching then s
      else if t.aborted then { s with queries := s.queries.advance i fun p => { p with fetching := false } }
      else match reply.results with
        | none =>
            { s with
              queries := s.queries.advance i fun p => { p with fetching := false }
              result := { s.result with error := true } }
        | some m =>
            { s with
              queries := s.queries.advance i fun _ => ⟨false, m.map ExplorerMove.san⟩
              result := { s.result with moves := some (sortMoves m) } }

def evaluated (i : Nat) (san : JsString) (reply : CloudReply) : UseExplorer :=
  match s.queries.tickets[i]? with
  | none => s
  | some t =>
      if san ∉ t.stage.evals then s
      else
        { s with
          queries := s.queries.advance i fun p => { p with evals := p.evals.erase san }
          result := if t.aborted then s.result
            else { s.result with
              evals := Function.update s.result.evals san (some (fetchCloudEval lib (fullFen lib t.key) san reply)) } }

inductive Action where
  | render (fen : Option JsString) (editing : Bool)
  | unmount
  | answered (i : Nat) (reply : ExplorerReply)
  | evaluated (i : Nat) (san : JsString) (reply : CloudReply)

def step : Action → UseExplorer
  | .render fen editing => s.render (fen.getD lib.initialFen) editing
  | .unmount => s.unmount
  | .answered i reply => s.answered i reply
  | .evaluated i san reply => s.evaluated lib i san reply

/-! ## What should hold -/

/-- The explorer answers for the FEN it is asked for, the cloud for the board. -/
def Honest (Q : JsString → ExplorerReply → Prop) (E : JsString → CloudReply → Prop) (s : UseExplorer) : Action → Prop
  | .answered i reply => ∀ t, s.queries.tickets[i]? = some t → Q (fullFen lib t.key) reply
  | .evaluated i san reply => ∀ t, s.queries.tickets[i]? = some t →
      ∀ board, fenAfter lib (fullFen lib t.key) san = some board → E board reply
  | _ => True

/-- What the cloud says of the position after a move, if anything. -/
def IsEval (E : JsString → CloudReply → Prop) (fen san : JsString) (e : Option CloudEval) : Prop :=
  e = none ∨ ∃ board reply, fenAfter lib fen san = some board ∧ E board reply ∧ e = cloudEval board reply

/-- What is shown while a request for a FEN has got so far. -/
inductive Shown (Q : JsString → ExplorerReply → Prop) (E : JsString → CloudReply → Prop) (fen : JsString) :
    Progress → ExplorerResult → Prop
  | loading : Shown Q E fen ⟨true, []⟩ .loading
  | failed (asked : Q fen .rejected) : Shown Q E fen ⟨false, []⟩ ⟨none, true, fun _ => none⟩
  | loaded {reply : ExplorerReply} {results moves : List ExplorerMove} {waiting : List JsString}
      {evals : JsString → Option (Option CloudEval)} (asked : Q fen reply) (replied : reply.results = some results)
      (perm : moves.Perm results) (sorted : moves.Pairwise fun a b => moveTotal b ≤ moveTotal a)
      (waits : ∀ m ∈ moves, m.san ∈ waiting ∨ evals m.san ≠ none) (asks : ∀ san ∈ waiting, ∃ m ∈ moves, m.san = san)
      (shown : ∀ san e, evals san = some e → (∃ m ∈ moves, m.san = san) ∧ IsEval lib E fen san e) :
      Shown Q E fen ⟨false, waiting⟩ ⟨some moves, false, evals⟩

/-- In the edit mode what is shown is for the position on the board, whose request is the only one that is not aborted, and
else nothing is under way. -/
structure Current (Q : JsString → ExplorerReply → Prop) (E : JsString → CloudReply → Prop) (s : UseExplorer) : Prop where
  alive : ∀ t ∈ s.queries.tickets, t.aborted = false → s.queries.current = some t
  active : ∀ fen, s.deps = some (fen, true) → ∃ t, s.queries.current = some t ∧ t.aborted = false ∧ t.key = fen ∧
    Shown lib Q E (fullFen lib fen) t.stage s.result
  idle : (∀ fen, s.deps ≠ some (fen, true)) → s.queries.current = none ∧ ∀ t ∈ s.queries.tickets, t.aborted = true

end UseExplorer

end Chessrepeat.Hooks
