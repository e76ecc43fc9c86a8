import Chessrepeat.Explorer.Lemmas.Counts

/-!
# What a batch counts
-/

namespace Chessrepeat.Explorer

open Lib Domain

variable {Position Move Raw : Type} {chess : Chess Position Move} {json : Json Raw}
variable {m : SanMap} {agg : Agg} {winner : Color} {key san : Text} {games : List Payload}

/-! ## Plies -/

/-- The plies of a game from a position, each with the position before it and its text; `none` for a game with a move
that is not legal. -/
def plies (chess : Chess Position Move) : Position → List Text → Option (List (Position × Text))
  | _, [] => some []
  | pos, san :: rest => (chess.decode pos san).bind fun m => (plies chess (chess.update pos m) rest).map ((pos, san) :: ·)

/-- How many plies of a game are this move in a position with this key. -/
def plyCount (chess : Chess Position Move) (key san : Text) (g : Payload) : Nat :=
  match plies chess chess.startingPosition g.moves with
  | none => 0
  | some ps => ps.countP fun p => positionKey chess p.1 = key ∧ p.2 = san

/-- How many pairs of a game with such a winner and a ply of it are this move in a position with this key. -/
def played (chess : Chess Position Move) (key san : Text) (won : Color → Bool) (games : List Payload) : Nat :=
  ((games.filter fun g => won g.winner).map (plyCount chess key san)).sum

/-- The keys a game is replayed with are those of the positions before its plies. -/
theorem gameKeysFrom_eq (chess : Chess Position Move) (pos : Position) (moves : List Text) :
    gameKeysFrom chess pos moves = (plies chess pos moves).map (List.map fun p => positionKey chess p.1) ∧
      ∀ ps, plies chess pos moves = some ps → ps.map Prod.snd = moves := by
  induction moves generalizing pos with
  | nil => exact ⟨rfl, fun ps h => by cases h; rfl⟩
  | cons san rest ih =>
      rw [gameKeysFrom, plies]
      cases chess.decode pos san with
      | none => exact ⟨rfl, fun ps h => by cases h⟩
      | some m =>
          obtain ⟨hkeys, hmoves⟩ := ih (chess.update pos m)
          refine ⟨?_, fun ps h => ?_⟩
          · simp only [hkeys, Option.bind_some, Option.map_map]
            rfl
          · obtain ⟨ps', hps, rfl⟩ := Option.map_eq_some_iff.mp h
            rw [List.map_cons, hmoves ps' hps]

/-! ## One game -/

/-- One game for the winner, as counts. -/
def Color.counts : Color → Counts
  | .white => (1, 0, 0)
  | .black => (0, 1, 0)
  | .other _ => (0, 0, 1)

theorem counts_record (winner : Color) (s : ResultSummary) : (s.record winner).counts = s.counts + winner.counts := by
  cases winner <;> simp [ResultSummary.record, ResultSummary.counts, Color.counts]

theorem san_record (winner : Color) (s : ResultSummary) : (s.record winner).san = s.san := by
  cases winner <;> rfl

def Agg.counts (agg : Agg) (key san : Text) : Counts :=
  match agg.find? key with
  | none => 0
  | some e => SanMap.counts e.2 san

/-- The inner map of a position, as the loop reads it. -/
def Agg.movesAt (agg : Agg) (key : Text) : SanMap :=
  match agg.find? key with
  | none => Table.empty
  | some e => e.2

/-- The inner map after one ply. -/
def SanMap.bump (winner : Color) (san : Text) (m : SanMap) : SanMap :=
  m.upsert (ResultSummary.record winner (match m.find? san with | none => ⟨san, 0, 0, 0⟩ | some s => s))

theorem add_eq (winner : Color) (agg : Agg) (k s : Text) :
    Agg.add winner agg (k, s) = agg.upsert (k, SanMap.bump winner s (agg.movesAt k)) := rfl

theorem counts_movesAt (agg : Agg) (key san : Text) : SanMap.counts (agg.movesAt key) san = Agg.counts agg key san := by
  rw [Agg.movesAt, Agg.counts]
  cases agg.find? key <;> rfl

theorem counts_bump (winner : Color) (s : Text) (m : SanMap) (san : Text) :
    SanMap.counts (SanMap.bump winner s m) san = SanMap.counts m san + if s = san then winner.counts else 0 := by
  rw [SanMap.bump, SanMap.counts_upsert, san_record, counts_record]
  cases hf : m.find? s with
  | none =>
      simp only
      split
      · rename_i hs
        rw [SanMap.counts, ← hs, hf]
        rfl
      · exact (add_zero _).symm
  | some r =>
      have hr : r.san = s := (Table.find?_eq_some.mp hf).2
      simp only [hr]
      split
      · rename_i hs
        rw [SanMap.counts, ← hs, hf]
      · exact (add_zero _).symm

theorem counts_add (winner : Color) (agg : Agg) (ply : Text × Text) (key san : Text) :
    Agg.counts (Agg.add winner agg ply) key san = Agg.counts agg key san + if ply = (key, san) then winner.counts else 0 := by
  obtain ⟨k, s⟩ := ply
  by_cases hk : k = key
  · subst hk
    rw [add_eq, Agg.counts, Table.find?_upsert, if_pos rfl, ← counts_movesAt]
    simp only [counts_bump, Prod.mk.injEq, true_and]
  · have hply : ¬ (k, s) = (key, san) := fun h => hk (Prod.mk.inj h).1
    rw [add_eq, Agg.counts, Table.find?_upsert, if_neg hk, if_neg hply, add_zero, Agg.counts]

theorem counts_foldl_add (winner : Color) (agg : Agg) (ps : List (Text × Text)) (key san : Text) :
    Agg.counts (ps.foldl (Agg.add winner) agg) key san = Agg.counts agg key san + ps.count (key, san) • winner.counts := by
  induction ps generalizing agg with
  | nil => rw [List.foldl_nil, List.count_nil, zero_nsmul, add_zero]
  | cons p ps ih =>
      rw [List.foldl_cons, ih, counts_add, List.count_cons, add_assoc, add_nsmul, add_comm (_ • winner.counts)]
      by_cases hp : p = (key, san)
      · simp only [hp, if_true, beq_self_eq_true, one_nsmul]
      · simp only [hp, if_false, beq_iff_eq, zero_nsmul]

/-- A game adds its plies, and nothing when one of its moves is not legal. -/
theorem counts_importGame (out : Agg × ImportResult) (g : Payload) (key san : Text) :
    Agg.counts (importGame chess out g).1 key san =
      Agg.counts out.1 key san + plyCount chess key san g • g.winner.counts := by
  obtain ⟨hkeys, hmoves⟩ := gameKeysFrom_eq chess chess.startingPosition g.moves
  rw [importGame, gameKeys, hkeys, plyCount]
  cases hp : plies chess chess.startingPosition g.moves with
  | none => simp only [Option.map_none, zero_nsmul, add_zero]
  | some ps =>
      have hzip : ((ps.map fun p => positionKey chess p.1).zip g.moves) = ps.map fun p => (positionKey chess p.1, p.2) := by
        rw [← hmoves ps hp, List.zip_map']
      simp only [Option.map_some]
      rw [counts_foldl_add, hzip, List.count, List.countP_map]
      congr 2
      exact List.countP_congr fun p _ => by simp

/-! ## Batches -/

/-- The pairs of a game and a ply by the winner of the game, as counts. -/
def playedCounts (chess : Chess Position Move) (key san : Text) (games : List Payload) : Counts :=
  (played chess key san (· = .white) games, played chess key san (· = .black) games,
    played chess key san (fun c => c ≠ .white ∧ c ≠ .black) games)

theorem played_cons (won : Color → Bool) (g : Payload) (gs : List Payload) :
    played chess key san won (g :: gs) = (if won g.winner then plyCount chess key san g else 0) + played chess key san won gs := by
  unfold played
  by_cases hw : won g.winner = true
  · rw [List.filter_cons_of_pos (p := fun g : Payload => won g.winner) hw, if_pos hw, List.map_cons, List.sum_cons]
  · rw [List.filter_cons_of_neg (p := fun g : Payload => won g.winner) hw, if_neg hw, zero_add]

theorem playedCounts_cons (g : Payload) (gs : List Payload) :
    playedCounts chess key san (g :: gs) = plyCount chess key san g • g.winner.counts + playedCounts chess key san gs := by
  unfold playedCounts
  rw [played_cons, played_cons, played_cons]
  cases g.winner <;> simp [Color.counts]

theorem playedCounts_append (gs hs : List Payload) :
    playedCounts chess key san (gs ++ hs) = playedCounts chess key san gs + playedCounts chess key san hs := by
  induction gs with
  | nil => exact (zero_add _).symm
  | cons g gs ih => rw [List.cons_append, playedCounts_cons, playedCounts_cons, ih, add_assoc]

theorem counts_foldl_importGame (p : List Payload) (out : Agg × ImportResult) (key san : Text) :
    Agg.counts (p.foldl (importGame chess) out).1 key san = Agg.counts out.1 key san + playedCounts chess key san p := by
  induction p generalizing out with
  | nil => exact (add_zero _).symm
  | cons g p ih => rw [List.foldl_cons, ih, counts_importGame, playedCounts_cons, add_assoc]

/-- Every game of a batch is imported or skipped. -/
theorem result_foldl_importGame (p : List Payload) (out : Agg × ImportResult) :
    (p.foldl (importGame chess) out).2.imported + (p.foldl (importGame chess) out).2.skipped =
      out.2.imported + out.2.skipped + p.length := by
  induction p generalizing out with
  | nil => rfl
  | cons g p ih =>
      have hone : (importGame chess out g).2.imported + (importGame chess out g).2.skipped =
          out.2.imported + out.2.skipped + 1 := by
        rw [importGame]
        cases gameKeys chess g.moves with
        | none => rfl
        | some keys => exact Nat.succ_add _ _
      rw [List.foldl_cons, ih, hone, List.length_cons, Nat.add_assoc, Nat.add_comm 1]

/-! ## Operands -/

/-- The operand of a key in a batch, if it has one, counts the plies of its games. -/
theorem operandsAt_single (chess : Chess Position Move) (hjson : json.RoundTrips) (b : Ranges × List Payload) (key : Text) :
    (∀ raw ∈ operandsAt chess json [b] key, Written json raw) ∧
      ∀ san, ((operandsAt chess json [b] key).map json.counts).sum san = playedCounts chess key san b.2 := by
  have hperm : (operandsAt chess json [b] key).Perm
      (((b.2.foldl (importGame chess) (Table.empty, ⟨0, 0⟩)).1.find? key).toList.map
        fun e => json.marshal ⟨(b.1.moves e.1).entries e.2.rows⟩) := by
    rw [operandsAt, List.flatMap_singleton, importBatch, List.filter_map, List.map_map, ← Table.filter_key]
    exact ((b.1.keys.perm _).filter _).map _
  have hcounts : ∀ san, Agg.counts (b.2.foldl (importGame chess) (Table.empty, ⟨0, 0⟩)).1 key san =
      playedCounts chess key san b.2 := fun san => (counts_foldl_importGame b.2 _ key san).trans (zero_add _)
  refine ⟨fun raw hraw => ?_, fun san => ?_⟩
  · obtain ⟨e, -, rfl⟩ := List.mem_map.mp (hperm.mem_iff.mp hraw)
    exact ⟨_, rfl, nodup_of_perm ((b.1.moves e.1).perm e.2.rows)⟩
  · rw [(hperm.map json.counts).sum_eq, ← hcounts, Agg.counts]
    cases (b.2.foldl (importGame chess) (Table.empty, ⟨0, 0⟩)).1.find? key with
    | none => rfl
    | some e =>
        simp only [Option.toList_some, List.map_singleton, List.sum_singleton]
        rw [hjson.counts_marshal, counts_of_perm ((b.1.moves e.1).perm e.2.rows)]

theorem operandsAt_cons (b : Ranges × List Payload) (batches : List (Ranges × List Payload)) (key : Text) :
    operandsAt chess json (b :: batches) key = operandsAt chess json [b] key ++ operandsAt chess json batches key := by
  simp only [operandsAt, List.flatMap_cons, List.flatMap_nil, List.append_nil, List.filter_append, List.map_append]

theorem operandsAt_counts (chess : Chess Position Move) (hjson : json.RoundTrips) (batches : List (Ranges × List Payload)) (key : Text) :
    (∀ raw ∈ operandsAt chess json batches key, Written json raw) ∧
      ∀ san, ((operandsAt chess json batches key).map json.counts).sum san =
        playedCounts chess key san (batches.flatMap Prod.snd) := by
  induction batches with
  | nil => exact ⟨fun raw h => (by cases h), fun san => rfl⟩
  | cons b batches ih =>
      obtain ⟨hwritten, hsum⟩ := operandsAt_single chess hjson b key
      rw [operandsAt_cons]
      refine ⟨fun raw hraw => ?_, fun san => ?_⟩
      · rcases List.mem_append.mp hraw with hraw | hraw
        · exact hwritten raw hraw
        · exact ih.1 raw hraw
      · rw [List.map_append, List.sum_append, Pi.add_apply, hsum, ih.2, List.flatMap_cons, playedCounts_append]

end Chessrepeat.Explorer
