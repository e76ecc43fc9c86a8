import Chessrepeat.Client.Lemmas.Counters
import Chessrepeat.Client.Lemmas.PathSets
import Chessrepeat.Client.Pgn

/-!
# What is made of a PGN

The nodes of an imported chapter beside the families of moves in the game, each family with the position before it.
-/

namespace Chessrepeat.Client

open Lib

variable {Card : Type} {lib : ChessLib} {pgn : PgnLibrary}

/-! ## Positions -/

namespace ChessLib

/-- The position a stored FEN stands for. -/
structure Stands (lib : ChessLib) (fen : JsString) (pos : lib.Position) : Prop where
  reached : lib.Reached pos
  parsed : ∃ pos', lib.positionFromFen fen = some pos' ∧ lib.fen pos' = lib.fen pos
  shown : ∃ pos', lib.setUp fen = some pos' ∧ ∀ san move, lib.parseSan pos san = some move →
    lib.makeSan pos' move = lib.makeSan pos move

theorem Stands.start (h : lib.Lawful) : lib.Stands lib.initialBoardFen lib.defaultPosition where
  reached := .start
  parsed := by
    rw [positionFromFen, h.trimmed, if_pos rfl]
    exact h.initial
  shown := h.board

theorem Stands.of_reached {pos : lib.Position} (h : lib.Lawful) (hpos : lib.Reached pos) : lib.Stands (lib.fen pos) pos where
  reached := hpos
  parsed := by
    rw [positionFromFen, if_neg (h.whole hpos)]
    exact h.printed hpos
  shown := by
    obtain ⟨pos', hset, hfen⟩ := h.printed hpos
    exact ⟨pos', hset, fun _ _ hmove => h.makeSan hpos hfen hmove⟩

/-- The move that a SAN stands for at a node. -/
theorem Stands.parseSan {fen san : JsString} {pos : lib.Position} (hs : lib.Stands fen pos) (h : lib.Lawful) :
    (lib.positionFromFen fen).bind (lib.parseSan · san) = lib.parseSan pos san := by
  obtain ⟨pos', hpos, hfen⟩ := hs.parsed
  rw [hpos, Option.bind_some, h.parseSan hs.reached hfen]

/-- What is played on the board at a node is written as at its position. -/
theorem Stands.chessgroundToSan {fen san src dest : JsString} {promoteTo : Option PromoRole} {pos : lib.Position}
    {move : lib.Move} (hs : lib.Stands fen pos) (hmove : lib.parseSan pos san = some move)
    (huci : lib.parseUci (uci src dest promoteTo) = some move) :
    lib.chessgroundToSan fen src dest promoteTo = some (lib.makeSan pos move) := by
  obtain ⟨pos', hpos, hshown⟩ := hs.shown
  rw [ChessLib.chessgroundToSan, hpos, Option.bind_some, huci, Option.map_some, hshown san move hmove]

end ChessLib

/-! ## The callback -/

/-- A call without the counter. -/
def importMove (lib : ChessLib) (context : TrainingContext lib.chessops) (data : GameNodeData) :
    Option (TrainingData Card × TrainingContext lib.chessops) :=
  (lib.parseSan context.pos data.san).map fun move =>
    let context : TrainingContext lib.chessops := ⟨!context.trainable, context.ply + 1, lib.play context.pos move⟩
    ({ id := lib.scalachessCharPair move
       fen := lib.fen context.pos
       ply := context.ply
       san := data.san
       comment := joinComments data.comments
       enabled := !context.trainable
       training := some [] }, context)

/-- What a node adds to the counter. -/
def weight (d : TrainingData Card) : Int := if d.enabled then 1 else 0

theorem add_weight (n : Int) (d : TrainingData Card) : n + weight d = if d.enabled then n + 1 else n := by
  rw [weight]
  split
  · rfl
  · exact Int.add_zero n

theorem annotate_eq (context : TrainingContext lib.chessops) (data : GameNodeData) (n : Int) :
    annotate (pgn.toPgn lib) context data.toPgnNodeData n =
      (importMove lib context data).map fun out => ((out.1 : TrainingData Card), out.2, n + weight out.1) := by
  rw [annotate, importMove, Option.map_map]
  refine congrArg (fun f => Option.map f (lib.parseSan context.pos data.san)) (funext fun move => ?_)
  simp only [add_weight]
  rfl

theorem sum_weight (ds : List (TrainingData Card)) : (ds.map weight).sum = ds.countP (·.enabled) := by
  induction ds with
  | nil => rfl
  | cons d ds ih =>
      rw [List.map_cons, List.sum_cons, ih, List.countP_cons, Int.add_comm, add_weight]
      split <;> rfl

/-- The moves below the root. -/
def importList (lib : ChessLib) (color : JsString) (game : Game) : Option (List (Rose (TrainingData Card))) :=
  Rose.threadList (importMove lib) ⟨color = white, 0, lib.defaultPosition⟩ game.moves

def rootData (lib : ChessLib) : TrainingData Card := ⟨[], lib.initialBoardFen, 0, [], [], false, some []⟩

/-- A chapter is made of the first game if all its moves are legal. -/
theorem chapterFromPgn_eq {game : Game} {games : List Game} {next : Nat} {rawPgn color name uuid : JsString}
    (hparse : pgn.parsePgn rawPgn = some (game :: games)) (hcolor : color ≠ []) :
    chapterFromPgn (pgn.toPgn lib) next rawPgn color name uuid = (importList lib color game).map fun moves =>
      let out := allocate next (Rose.node (rootData lib : TrainingData Card) moves)
      let n : Int := (Rose.labelsList moves).countP (·.enabled)
      (⟨uuid, name, color, out.1, n, n, 0⟩, out.2) := by
  have htransform : (pgn.toPgn lib).transform game (trainingContext (pgn.toPgn lib) color) (annotate (pgn.toPgn lib)) 0 =
      (importList lib color game).map fun moves =>
        (moves, 0 + ((Rose.labelsList moves).map (weight : TrainingData Card → Int)).sum) := by
    have hannotate : (fun (c : TrainingContext lib.chessops) (d : GameNodeData) n =>
        (annotate (pgn.toPgn lib) c d.toPgnNodeData n : Option (TrainingData Card × _))) =
        fun c d n => (importMove lib c d).map fun out => (out.1, out.2, n + weight out.1) :=
      funext fun c => funext fun d => funext fun n => annotate_eq c d n
    change pgn.transform game.moves _ (fun c d n => annotate (pgn.toPgn lib) c d.toPgnNodeData n) 0 = _
    rw [hannotate]
    exact pgn.transform_thread game.moves _ (importMove lib) weight 0
  have hgames : (pgn.toPgn lib).parsePgn rawPgn = some (game :: games) := hparse
  rw [chapterFromPgn, hgames]
  simp only [if_neg hcolor, htransform, Option.map_map, sum_weight, Int.zero_add]
  rfl

theorem color_ne_nil {color : JsString} (h : color = white ∨ color = black) : color ≠ [] := by
  rcases h with rfl | rfl
  · decide
  · decide

/-- What is known of a chapter that was made. -/
theorem chapterFromPgn_some {next next' : Nat} {rawPgn color name uuid : JsString} {c : Chapter Card} (hcolor : color ≠ [])
    (h : chapterFromPgn (pgn.toPgn lib) next rawPgn color name uuid = some (c, next')) :
    ∃ game games moves, pgn.parsePgn rawPgn = some (game :: games) ∧ importList lib color game = some moves ∧
      c.root.map Object.data = Rose.node (rootData lib) moves ∧ c.trainAs = color ∧ c.enabledCount = countEnabled c.root := by
  have hgames : ∃ game games, pgn.parsePgn rawPgn = some (game :: games) := by
    rw [chapterFromPgn] at h
    split at h
    · cases h
    · cases h
    · rename_i game games hparse
      exact ⟨game, games, hparse⟩
  obtain ⟨game, games, hparse⟩ := hgames
  rw [chapterFromPgn_eq hparse hcolor] at h
  obtain ⟨moves, hmoves, he⟩ := Option.map_eq_some_iff.mp h
  cases he
  refine ⟨game, games, moves, hparse, hmoves, (allocate_spec _ _).2.2, rfl, ?_⟩
  rw [countEnabled, forEachNode_allocate, Rose.labels_node, List.countP_cons_of_neg (by simp [rootData])]

theorem chapterFromPgn_new {next next' : Nat} {rawPgn color name uuid : JsString} {c : Chapter Card}
    (h : chapterFromPgn (pgn.toPgn lib) next rawPgn color name uuid = some (c, next')) :
    c.unseenCount = c.enabledCount ∧ (c.root.labels.map Object.ref).Nodup := by
  rw [chapterFromPgn] at h
  split at h
  · cases h
  · cases h
  · obtain ⟨⟨moves, n⟩, -, he⟩ := Option.map_eq_some_iff.mp h
    cases he
    refine ⟨rfl, ?_⟩
    rw [(allocate_spec _ _).1]
    exact List.nodup_range'

/-! ## Nodes and families -/

/-- The context after a node. -/
structure Tracks (lib : ChessLib) (color : JsString) (d : TrainingData Card) (context : TrainingContext lib.chessops) :
    Prop where
  stands : lib.Stands d.fen context.pos
  ply : d.ply = context.ply
  nonneg : 0 ≤ context.ply
  trainable : context.trainable = decide (colorFromPly context.ply ≠ color)

variable {color : JsString} {context context' : TrainingContext lib.chessops} {d₀ d : TrainingData Card} {data : GameNodeData}

theorem importMove_eq_some : importMove lib context data = some (d, context') ↔ ∃ move,
    lib.parseSan context.pos data.san = some move ∧
      context' = ⟨!context.trainable, context.ply + 1, lib.play context.pos move⟩ ∧
      d = ⟨lib.scalachessCharPair move, lib.fen (lib.play context.pos move), context.ply + 1, data.san,
        joinComments data.comments, context.trainable, some []⟩ := by
  rw [importMove, Option.map_eq_some_iff]
  constructor
  · rintro ⟨move, hmove, he⟩
    cases he
    exact ⟨move, hmove, rfl, by rw [Bool.not_not]⟩
  · rintro ⟨move, hmove, rfl, rfl⟩
    refine ⟨move, hmove, ?_⟩
    simp only [Bool.not_not]

/-- The colours of the plies alternate. -/
theorem colorFromPly_succ {ply : Int} (h : 0 ≤ ply) (hcolor : color = white ∨ color = black) :
    colorFromPly (ply + 1) ≠ color ↔ colorFromPly ply = color := by
  have hwb : white ≠ black := by decide
  have hodd : (ply + 1).tmod 2 = 1 ↔ ¬ply.tmod 2 = 1 := by
    rw [Int.tmod_eq_emod_of_nonneg h, Int.tmod_eq_emod_of_nonneg (by omega)]
    omega
  rw [colorFromPly, colorFromPly]
  by_cases hply : ply.tmod 2 = 1
  · rw [if_pos hply, if_neg (by rw [hodd]; exact not_not.mpr hply)]
    rcases hcolor with rfl | rfl
    · simp [hwb.symm]
    · simp [hwb]
  · rw [if_neg hply, if_pos (hodd.mpr hply)]
    rcases hcolor with rfl | rfl
    · simp [hwb.symm]
    · simp [hwb]

theorem Tracks.start (h : lib.Lawful) (hcolor : color = white ∨ color = black) :
    Tracks lib color (rootData lib : TrainingData Card) ⟨color = white, 0, lib.defaultPosition⟩ where
  stands := .start h
  ply := rfl
  nonneg := Int.le_refl 0
  trainable := by
    have hfirst : decide (color = white) = decide (colorFromPly 0 ≠ color) := by
      rcases hcolor with rfl | rfl
      · decide
      · decide
    exact hfirst

theorem Tracks.importMove (h : lib.Lawful) (hcolor : color = white ∨ color = black) (ht : Tracks lib color d₀ context)
    (hmove : importMove lib context data = some (d, context')) : Tracks lib color d context' := by
  obtain ⟨move, hparse, rfl, rfl⟩ := importMove_eq_some.mp hmove
  have hnonneg := ht.nonneg
  refine ⟨.of_reached h (.play ht.stands.reached hparse), rfl, by change 0 ≤ context.ply + 1; omega, ?_⟩
  change (!context.trainable) = decide (colorFromPly (context.ply + 1) ≠ color)
  rw [ht.trainable, Bool.eq_iff_iff, Bool.not_eq_true', decide_eq_false_iff_not, decide_eq_true_eq, not_not,
    colorFromPly_succ ht.nonneg hcolor]

/-- The positions of the game are those of the contexts of the import. -/
theorem siblings_eq (Card : Type) (color : JsString) (game : Game) : game.siblings lib =
    ((⟨color = white, 0, lib.defaultPosition⟩, game.moves.map Rose.label) ::
      Rose.familiesList (Rose.leaves (@importMove Card lib)) ⟨color = white, 0, lib.defaultPosition⟩ game.moves).map
      (Prod.map TrainingContext.pos id) := by
  have hstep : ∀ (c : TrainingContext lib.chessops) (a : GameNodeData),
      lib.playSan c.pos a = (Rose.leaves (@importMove Card lib) c a).map TrainingContext.pos := by
    intro c a
    rw [ChessLib.playSan, Rose.leaves, importMove, Option.map_map, Option.map_map]
    rfl
  rw [Game.siblings, Rose.familiesList_map (p := TrainingContext.pos) hstep game.moves ⟨color = white, 0, lib.defaultPosition⟩]
  rfl

/-- The nodes of a chapter are made in the positions of its game. -/
theorem forall₂_siblings {game : Game} {moves : List (Rose (TrainingData Card))} (h : lib.Lawful)
    (hcolor : color = white ∨ color = black) (hmoves : importList lib color game = some moves) :
    List.Forall₂ (fun (n : Rose (TrainingData Card)) (f : lib.Position × List GameNodeData) =>
        ∃ context : TrainingContext lib.chessops, Tracks lib color n.label context ∧ context.pos = f.1 ∧
          List.Forall₂ (fun (a : GameNodeData) (m : Rose (TrainingData Card)) =>
            ∃ context', importMove lib context a = some (m.label, context')) f.2 n.children)
      (Rose.node (rootData lib) moves).nodes (game.siblings lib) := by
  have hmade := Rose.forall₂_root (g := importMove lib) (J := Tracks lib color) (fun h₀ hg => h₀.importMove h hcolor hg) (.start h hcolor) hmoves
  rw [siblings_eq Card color game, List.forall₂_map_right_iff]
  exact hmade.imp fun n f hn => ⟨f.1, hn.1, rfl, hn.2⟩

/-- The tree of a chapter that was made from a game. -/
def MadeFrom (lib : ChessLib) (color : JsString) (game : Game) (root : TrainableNode Card) : Prop :=
  ∃ moves, importList lib color game = some moves ∧ root.map Object.data = Rose.node (rootData lib) moves

theorem exists_madeFrom {next next' : Nat} {rawPgn color name uuid : JsString} {c : Chapter Card}
    (hcolor : color = white ∨ color = black)
    (h : chapterFromPgn (pgn.toPgn lib) next rawPgn color name uuid = some (c, next')) :
    ∃ game games, pgn.parsePgn rawPgn = some (game :: games) ∧ MadeFrom lib color game c.root ∧ c.trainAs = color ∧
      c.enabledCount = countEnabled c.root := by
  obtain ⟨game, games, moves, hparse, hmoves, hroot, hrest⟩ := chapterFromPgn_some (color_ne_nil hcolor) h
  exact ⟨game, games, hparse, ⟨moves, hmoves, hroot⟩, hrest⟩

variable {game : Game} {root : TrainableNode Card}

theorem MadeFrom.forall₂_siblings (hmade : MadeFrom lib color game root) (h : lib.Lawful)
    (hcolor : color = white ∨ color = black) :
    List.Forall₂ (fun (n : TrainableNode Card) (f : lib.Position × List GameNodeData) =>
        ∃ context : TrainingContext lib.chessops, Tracks lib color n.label.data context ∧ context.pos = f.1 ∧
          List.Forall₂ (fun (a : GameNodeData) (m : TrainableNode Card) =>
            ∃ context', importMove lib context a = some (m.label.data, context')) f.2 n.children)
      root.nodes (game.siblings lib) := by
  obtain ⟨moves, hmoves, hroot⟩ := hmade
  have hdata := Client.forall₂_siblings h hcolor hmoves
  rw [← hroot, Rose.nodes_map, List.forall₂_map_left_iff] at hdata
  refine hdata.imp fun n f hn => ?_
  obtain ⟨context, htracks, hpos, hchildren⟩ := hn
  rw [Rose.label_map] at htracks
  rw [Rose.children_map, List.forall₂_map_right_iff] at hchildren
  refine ⟨context, htracks, hpos, hchildren.imp fun a m hm => ?_⟩
  rw [Rose.label_map] at hm
  exact hm

/-- Every child of a node is made from the context after the node. -/
theorem MadeFrom.tracks (hmade : MadeFrom lib color game root) (h : lib.Lawful) (hcolor : color = white ∨ color = black)
    {n : TrainableNode Card} (hn : n ∈ root.nodes) : ∃ context, Tracks lib color n.label.data context ∧
      ∀ m ∈ n.children, ∃ data context', importMove lib context data = some (m.label.data, context') := by
  obtain ⟨f, -, context, htracks, -, hchildren⟩ := exists_of_mem_forall₂ (hmade.forall₂_siblings h hcolor).flip hn
  refine ⟨context, htracks, fun m hm => ?_⟩
  obtain ⟨data, -, context', hdata⟩ := exists_of_mem_forall₂ hchildren hm
  exact ⟨data, context', hdata⟩

/-! ## Ids -/

theorem MadeFrom.below (hmade : MadeFrom lib color game root) (h : lib.Lawful) (hcolor : color = white ∨ color = black)
    {p : JsString → Prop} (hp : ∀ move, p (lib.scalachessCharPair move)) :
    Rose.Below (fun o : Object Card => p o.id) root := by
  rw [Rose.below_iff]
  intro n hn m hm
  obtain ⟨context, -, hchildren⟩ := hmade.tracks h hcolor hn
  obtain ⟨data, context', hdata⟩ := hchildren m hm
  obtain ⟨move, -, -, hd⟩ := importMove_eq_some.mp hdata
  have hid : m.label.id = lib.scalachessCharPair move := congrArg TrainingData.id hd
  rw [hid]
  exact hp move

theorem MadeFrom.twoUnits (hmade : MadeFrom lib color game root) (h : lib.Lawful) (hcolor : color = white ∨ color = black) :
    TwoUnits root :=
  hmade.below h hcolor (p := fun id => id.length = 2) lib.length_scalachessCharPair

theorem MadeFrom.plainIds (hmade : MadeFrom lib color game root) (h : lib.Lawful) (hcolor : color = white ∨ color = black) :
    PlainIds root :=
  hmade.below h hcolor h.plain

/-- The ids of siblings are the pairs of their moves. -/
theorem ids_of_importMove {as : List GameNodeData} {ns : List (TrainableNode Card)}
    (h : List.Forall₂ (fun (a : GameNodeData) (m : TrainableNode Card) =>
      ∃ context', importMove lib context a = some (m.label.data, context')) as ns) :
    (as.map fun a => lib.parseSan context.pos a.san).map (Option.map lib.scalachessCharPair) =
      (ns.map fun m => m.label.id).map some := by
  induction h with
  | nil => rfl
  | cons hm _ ih =>
      obtain ⟨context', hm⟩ := hm
      obtain ⟨move, hmove, -, hdata⟩ := importMove_eq_some.mp hm
      rw [List.map_cons, List.map_cons, List.map_cons, List.map_cons, ih, hmove, Object.id, hdata]
      rfl

/-- Siblings have different ids if and only if they are different moves. -/
theorem MadeFrom.distinctIds_iff (hmade : MadeFrom lib color game root) (h : lib.Lawful)
    (hcolor : color = white ∨ color = black) (hpairs : lib.PairsInjective) : DistinctIds root ↔ game.Unrepeated lib := by
  have hboth := hmade.forall₂_siblings h hcolor
  have hsame : ∀ {n : TrainableNode Card} {f : lib.Position × List GameNodeData},
      (∃ context : TrainingContext lib.chessops, Tracks lib color n.label.data context ∧ context.pos = f.1 ∧
        List.Forall₂ (fun (a : GameNodeData) (m : TrainableNode Card) =>
          ∃ context', importMove lib context a = some (m.label.data, context')) f.2 n.children) →
        ((n.children.map fun m => m.label.id).Nodup ↔ (f.2.map fun data => lib.parseSan f.1 data.san).Nodup) := by
    rintro n f ⟨context, htracks, hpos, hchildren⟩
    have hids := ids_of_importMove hchildren
    rw [hpos] at hids
    rw [← List.nodup_map_iff (f := some) (fun _ _ => Option.some.inj), ← hids]
    refine ⟨List.Nodup.of_map _, fun hnodup => hnodup.map_on fun x hx y hy hxy => ?_⟩
    obtain ⟨a, ha, rfl⟩ := List.mem_map.mp hx
    obtain ⟨b, hb, rfl⟩ := List.mem_map.mp hy
    obtain ⟨m, -, context₁, hm⟩ := exists_of_mem_forall₂ hchildren.flip ha
    obtain ⟨move, hmove, -⟩ := importMove_eq_some.mp hm
    obtain ⟨m', -, context₂, hm'⟩ := exists_of_mem_forall₂ hchildren.flip hb
    obtain ⟨move', hmove', -⟩ := importMove_eq_some.mp hm'
    rw [hpos] at hmove hmove'
    rw [hmove, hmove'] at hxy ⊢
    exact congrArg some (hpairs (hpos ▸ htracks.stands.reached) hmove hmove' (Option.some.inj hxy))
  constructor
  · intro hdistinct f hf
    obtain ⟨n, hn, hfamily⟩ := exists_of_mem_forall₂ hboth hf
    exact (hsame hfamily).mp (hdistinct n hn)
  · intro hunrepeated n hn
    obtain ⟨f, hf, hfamily⟩ := exists_of_mem_forall₂ hboth.flip hn
    exact (hsame hfamily).mpr (hunrepeated f hf)

/-! ## The board -/

/-- Two moves that differ in the spelling and in the comment at most. -/
structure SameMove (d d' : TrainingData Card) : Prop where
  id : d'.id = d.id
  fen : d'.fen = d.fen
  ply : d'.ply = d.ply
  enabled : d'.enabled = d.enabled

/-- The line of moves from the root to a node is entered on the board, as `makeMove` makes its nodes. What is entered
may be spelled in another way than in the PGN. -/
inductive Entered (chess : Chessops) (trainAs : JsString) (root : TrainableNode Card) :
    TrainableNode Card → TrainingData Card → Prop where
  | root : Entered chess trainAs root root root.label.data
  | move {parent n : TrainableNode Card} {d d' : TrainingData Card} {san : JsString}
      (line : Entered chess trainAs root parent d) (child : n ∈ parent.children)
      (same : (chess.positionFromFen d.fen).bind (chess.parseSan · san) =
        (chess.positionFromFen d.fen).bind (chess.parseSan · n.label.data.san))
      (made : newMove chess trainAs d san = some d') : Entered chess trainAs root n d'

theorem Entered.mem_nodes {chess : Chessops} {trainAs : JsString} {root n : TrainableNode Card} {d : TrainingData Card}
    (h : Entered chess trainAs root n d) : n ∈ root.nodes := by
  induction h with
  | root => exact Rose.self_mem_nodes root
  | move _ child _ _ ih => exact Rose.nodes_trans (Rose.child_mem_nodes child) ih

/-- The board makes of a move what the import makes of it. -/
theorem Tracks.newMove (h : lib.Lawful) (ht : Tracks lib color d₀ context)
    (hmove : Client.importMove lib context data = some (d, context')) {d₁ : TrainingData Card} (hsame : SameMove d₀ d₁) {san : JsString}
    (hsan : (lib.positionFromFen d₁.fen).bind (lib.parseSan · san) = (lib.positionFromFen d₁.fen).bind (lib.parseSan · d.san)) :
    ∃ d', newMove lib.chessops color d₁ san = some d' ∧ SameMove d d' := by
  obtain ⟨move, hparse, rfl, rfl⟩ := importMove_eq_some.mp hmove
  rw [hsame.fen, ht.stands.parseSan h, ht.stands.parseSan h, hparse] at hsan
  obtain ⟨pos, hpos, hfen⟩ := ht.stands.parsed
  have hpos' : lib.chessops.positionFromFen d₁.fen = some pos := hsame.fen ▸ hpos
  have hparse' : lib.chessops.parseSan pos san = some move := (congrFun (h.parseSan ht.stands.reached hfen) san).trans hsan
  have hnew : Client.newMove lib.chessops color d₁ san = some
      ⟨lib.scalachessCharPair move, lib.fen (lib.makeSanAndPlay pos move).2, d₁.ply + 1, lib.makeSan pos move, [],
        colorFromPly d₁.ply ≠ color, some []⟩ := by
    rw [Client.newMove, hpos', Option.bind_some, hparse']
    rfl
  refine ⟨_, hnew, rfl, h.played ht.stands.reached hfen hparse, ?_, ?_⟩
  · change d₁.ply + 1 = context.ply + 1
    rw [hsame.ply, ht.ply]
  · change decide (colorFromPly d₁.ply ≠ color) = context.trainable
    rw [hsame.ply, ht.ply, ht.trainable]

/-- At a node that the board has entered, the next move is made as the import has made it. -/
theorem MadeFrom.newMove (hmade : MadeFrom lib color game root) (h : lib.Lawful) (hcolor : color = white ∨ color = black)
    {parent n : TrainableNode Card} (hparent : parent ∈ root.nodes) (hn : n ∈ parent.children)
    (hsame : SameMove parent.label.data d) {san : JsString}
    (hsan : (lib.positionFromFen d.fen).bind (lib.parseSan · san) =
      (lib.positionFromFen d.fen).bind (lib.parseSan · n.label.data.san)) :
    ∃ d', Client.newMove lib.chessops color d san = some d' ∧ SameMove n.label.data d' := by
  obtain ⟨context, htracks, hchildren⟩ := hmade.tracks h hcolor hparent
  obtain ⟨data, context', hdata⟩ := hchildren n hn
  exact htracks.newMove h hdata hsame hsan

theorem MadeFrom.entered (hmade : MadeFrom lib color game root) (h : lib.Lawful) (hcolor : color = white ∨ color = black)
    {n : TrainableNode Card} (he : Entered lib.chessops color root n d) : SameMove n.label.data d := by
  induction he with
  | root => exact ⟨rfl, rfl, rfl, rfl⟩
  | move line child same made ih =>
      obtain ⟨d', hd', hsame⟩ := hmade.newMove h hcolor line.mem_nodes child ih same
      rw [Option.some.inj (made.symm.trans hd')]
      exact hsame

/-- The side that plays the moves at a depth. White plays the first move. -/
def mover (depth : Nat) : JsString := if depth % 2 = 1 then white else black

theorem colorFromPly_natCast (depth : Nat) : colorFromPly depth = mover depth := by
  rw [colorFromPly, mover]
  have : (depth : Int).tmod 2 = 1 ↔ depth % 2 = 1 := by
    rw [Int.tmod_eq_emod_of_nonneg (Int.natCast_nonneg depth)]
    omega
  simp only [this]

/-! ## Depth -/

/-- A move is one ply below its parent, and enabled if the trained side plays it. -/
theorem Tracks.child (ht : Tracks lib color d₀ context) (hcolor : color = white ∨ color = black)
    (hmove : Client.importMove lib context data = some (d, context')) :
    d.ply = d₀.ply + 1 ∧ (d.enabled = true ↔ colorFromPly d.ply = color) := by
  obtain ⟨move, -, -, rfl⟩ := importMove_eq_some.mp hmove
  refine ⟨by rw [ht.ply], ?_⟩
  change context.trainable = true ↔ colorFromPly (context.ply + 1) = color
  rw [ht.trainable, decide_eq_true_eq, ← not_iff_not, not_not, ← colorFromPly_succ ht.nonneg hcolor]

theorem MadeFrom.label (hmade : MadeFrom lib color game root) : root.label.data = rootData lib := by
  obtain ⟨moves, -, hroot⟩ := hmade
  have hlabel := congrArg Rose.label hroot
  rwa [Rose.label_map] at hlabel

theorem MadeFrom.ply (hmade : MadeFrom lib color game root) (h : lib.Lawful) (hcolor : color = white ∨ color = black)
    {place : List Nat} {t n : TrainableNode Card} (ht : t ∈ root.nodes) (hn : t.get? place = some n) :
    n.label.data.ply = t.label.data.ply + place.length ∧
      (place ≠ [] → (n.label.data.enabled = true ↔ colorFromPly n.label.data.ply = color)) := by
  induction place generalizing t with
  | nil =>
      cases hn
      exact ⟨(Int.add_zero _).symm, fun hne => absurd rfl hne⟩
  | cons i place ih =>
      obtain ⟨c, hc, hn⟩ := Rose.get?_cons.mp hn
      have hmem : c ∈ t.children := List.mem_of_getElem? hc
      obtain ⟨context, htracks, hchildren⟩ := hmade.tracks h hcolor ht
      obtain ⟨data, context', hdata⟩ := hchildren c hmem
      obtain ⟨hply, henabled⟩ := htracks.child hcolor hdata
      obtain ⟨hrest, hlast⟩ := ih (Rose.nodes_trans (Rose.child_mem_nodes hmem) ht) hn
      refine ⟨?_, fun _ => ?_⟩
      · rw [hrest, hply, List.length_cons]
        push_cast
        omega
      · cases place with
        | nil =>
            cases hn
            exact henabled
        | cons j place => exact hlast nofun

/-! ## Moves that are played again -/

/-- What the board makes of a move when it is played at the parent. -/
def PlayedSan (lib : ChessLib) (parent n : TrainableNode Card) (san : JsString) : Prop :=
  ∃ move src dest promoteTo,
    (lib.positionFromFen parent.label.data.fen).bind (lib.parseSan · n.label.data.san) = some move ∧
      lib.parseUci (ChessLib.uci src dest promoteTo) = some move ∧
        lib.chessgroundToSan parent.label.data.fen src dest promoteTo = some san

/-- Every move of a chapter is known when it is played: its text is that of the node, it is a right guess, and it is not
entered a second time. -/
structure Recognised (lib : ChessLib) (c : Chapter Card) : Prop where
  canonical : ∀ parent ∈ c.root.nodes, ∀ n ∈ parent.children, ∀ san, PlayedSan lib parent n san → san = n.label.data.san
  guessed : ∀ parent ∈ c.root.nodes, ∀ n ∈ parent.children, ∀ san, PlayedSan lib parent n san →
    ∀ (s : TrainerState Card) (path : JsString), s.selectedChapter = some c → s.trainingMethod ≠ some .learn →
      nodeAtPathOrNull c.root path = some parent → s.trainableContext = some ⟨path, n.label.ref⟩ →
        s.deref n.label.ref = some n → s.guess san = some .success
  entered : ∀ parent ∈ c.root.nodes, ∀ n ∈ parent.children, ∀ san, PlayedSan lib parent n san →
    ∀ (s : TrainerState Card) (env : Env Card), s.selectedChapter = some c → s.selectedNode.bind s.deref = some parent →
      (s.makeMove lib.chessops env san).repertoire = s.repertoire

/-- Every move of a game is written as chessops writes it. -/
def Game.Canonical (lib : ChessLib) (game : Game) : Prop :=
  ∀ f ∈ game.siblings lib, ∀ data ∈ f.2, ∀ move, lib.parseSan f.1 data.san = some move → lib.makeSan f.1 move = data.san

theorem guess_target {s : TrainerState Card} {c : Chapter Card} {parent n : TrainableNode Card} {path : JsString}
    (hc : s.selectedChapter = some c) (hmethod : s.trainingMethod ≠ some .learn)
    (hpath : nodeAtPathOrNull c.root path = some parent) (hcontext : s.trainableContext = some ⟨path, n.label.ref⟩)
    (hn : s.deref n.label.ref = some n) (hchild : n ∈ parent.children) : s.guess n.label.data.san = some .success := by
  have hlast : (getNodeList c.root path).getLast? = some parent := by
    rw [getLast?_getNodeList, nodeAtPath_of_found hpath]
  have hany : (parent.children.any fun m : TrainableNode Card => m.data.san = n.label.data.san) = true :=
    List.any_eq_true.mpr ⟨n, hchild, decide_eq_true rfl⟩
  simp only [TrainerState.guess, hc, hcontext, hmethod, if_false, hlast, hn, hany, if_true]

theorem makeMove_known (chess : Chessops) (env : Env Card) {s : TrainerState Card} {c : Chapter Card}
    {parent n : TrainableNode Card} (hc : s.selectedChapter = some c) (hparent : s.selectedNode.bind s.deref = some parent)
    (hchild : n ∈ parent.children) : (s.makeMove chess env n.label.data.san).repertoire = s.repertoire := by
  have hany : (parent.children.any fun m : TrainableNode Card => m.data.san = n.label.data.san) = true :=
    List.any_eq_true.mpr ⟨n, hchild, decide_eq_true rfl⟩
  simp only [TrainerState.makeMove, hc, hparent, TrainerState.extend, hany, if_true]
  exact repertoire_follow _ _

/-- A move of the game, its node, and what the board makes of it. -/
theorem MadeFrom.playedSan (hmade : MadeFrom lib color game root) (h : lib.Lawful) (hcolor : color = white ∨ color = black) :
    List.Forall₂ (fun (n : TrainableNode Card) (f : lib.Position × List GameNodeData) =>
        List.Forall₂ (fun (a : GameNodeData) (m : TrainableNode Card) => ∃ move, lib.parseSan f.1 a.san = some move ∧
          m.label.data.san = a.san ∧ ∀ san, PlayedSan lib n m san ↔ san = lib.makeSan f.1 move) f.2 n.children)
      root.nodes (game.siblings lib) := by
  refine (hmade.forall₂_siblings h hcolor).imp fun n f hn => ?_
  obtain ⟨context, htracks, hpos, hchildren⟩ := hn
  refine hchildren.imp fun a m hm => ?_
  obtain ⟨context', hm⟩ := hm
  obtain ⟨move, hparse, -, hdata⟩ := importMove_eq_some.mp hm
  have hsan : m.label.data.san = a.san := congrArg TrainingData.san hdata
  rw [← hpos]
  refine ⟨move, hparse, hsan, fun san => ?_⟩
  have hmove : (lib.positionFromFen n.label.data.fen).bind (lib.parseSan · m.label.data.san) = some move := by
    rw [htracks.stands.parseSan h, hsan, hparse]
  constructor
  · rintro ⟨move', src, dest, promoteTo, hmove', huci, hplayed⟩
    obtain rfl : move = move' := Option.some.inj (hmove.symm.trans hmove')
    exact Option.some.inj (hplayed.symm.trans (htracks.stands.chessgroundToSan hparse huci))
  · rintro rfl
    obtain ⟨src, dest, promoteTo, huci⟩ := h.uci htracks.stands.reached hparse
    exact ⟨move, src, dest, promoteTo, hmove, huci, htracks.stands.chessgroundToSan hparse huci⟩

/-! ## Import and export -/

section Export

open PgnLibrary

/-- The callback of the import with all that it returns. -/
def importAll (lib : ChessLib) (context : TrainingContext lib.chessops) (data : GameNodeData) :
    Option (ImportedData Card × TrainingContext lib.chessops) :=
  (importMove lib context data).map (Prod.map (·, data) id)

theorem importMoves_eq {games : List Game} {rawPgn : JsString} (hparse : pgn.parsePgn rawPgn = some (game :: games))
    (hcolor : color ≠ []) : (pgn.importMoves lib rawPgn color : Option (List (Rose (ImportedData Card)))) =
      Rose.threadList (importAll lib) ⟨color = white, 0, lib.defaultPosition⟩ game.moves := by
  have hannotate : (annotateAll lib pgn : TrainingContext lib.chessops → GameNodeData → Int →
        Option (ImportedData Card × TrainingContext lib.chessops × Int)) =
      fun c d n => (importAll lib c d).map fun out => (out.1, out.2, n + weight out.1.1) := by
    refine funext fun c => funext fun d => funext fun n => ?_
    rw [annotateAll, annotate_eq, importAll, Option.map_map, Option.map_map]
    rfl
  rw [importMoves, hparse]
  simp only [if_neg hcolor, hannotate]
  rw [pgn.transform_thread game.moves _ (importAll lib) (fun d => weight d.1) 0, Option.map_map]
  exact Option.map_id'

theorem importList_eq (color : JsString) (game : Game) : (importList lib color game : Option (List (Rose (TrainingData Card)))) =
    (Rose.threadList (importAll lib) ⟨color = white, 0, lib.defaultPosition⟩ game.moves).map (Rose.mapList Prod.fst) := by
  rw [← Rose.threadList_map, importList]
  congr 1
  funext c d
  rw [importAll, Option.map_map]
  exact Option.map_id'.symm

/-- Legal games are imported. -/
theorem Game.Legal.isSome (hlegal : game.Legal lib) (color : JsString) :
    (Rose.threadList (@importAll Card lib) ⟨color = white, 0, lib.defaultPosition⟩ game.moves).isSome := by
  have hleaves : Rose.leaves (@importAll Card lib) = Rose.leaves (@importMove Card lib) := by
    funext c a
    rw [Rose.leaves, Rose.leaves, importAll, Option.map_map]
    rfl
  refine Rose.isSome_threadList game.moves _ fun f hf data hdata => ?_
  rw [hleaves] at hf
  rw [importAll, Option.isSome_map, importMove, Option.isSome_map]
  have hmem : (f.1.pos, f.2) ∈ game.siblings lib := by
    rw [siblings_eq Card color game]
    exact List.mem_map.mpr ⟨f, hf, rfl⟩
  exact hlegal _ hmem data hdata

/-- A node of the game as it is exported. -/
def exportData (data : GameNodeData) : GameNodeData :=
  { data with comments := if joinComments data.comments = [] then none else some [joinComments data.comments] }

theorem mapList_exportNode {moves : List (Rose (ImportedData Card))}
    (h : Rose.threadList (importAll lib) ⟨color = white, 0, lib.defaultPosition⟩ game.moves = some moves) :
    Rose.mapList exportNode moves = Rose.mapList exportData game.moves := by
  refine Rose.mapList_threadList (fun {c a b c'} hb => ?_) game.moves h
  obtain ⟨⟨d, c''⟩, hd, he⟩ := Option.map_eq_some_iff.mp hb
  cases he
  obtain ⟨move, -, -, rfl⟩ := importMove_eq_some.mp hd
  rfl

theorem pgnFromChapter_eq (name : JsString) (moves : List (Rose (ImportedData Card))) :
    pgn.pgnFromChapter lib name moves = some (pgn.makePgn (exported name moves)) := by
  have hcall : (fun (pos : lib.Position) (node : ImportedData Card) (n : Int) => some (exportNode node, pos, n)) =
      fun pos node n => ((fun pos node => some (exportNode node, pos)) pos node : Option (GameNodeData × lib.Position)).map
        fun out => (out.1, out.2, n + (fun _ => 0) out.1) := by
    refine funext fun pos => funext fun node => funext fun n => ?_
    simp
  rw [pgnFromChapter, hcall, pgn.transform_thread moves lib.defaultPosition (fun pos node => some (exportNode node, pos))
    (fun _ => 0) 0, Rose.threadList_pure]
  rfl

/-! ## Comments -/

theorem infix_intercalate {sep text : JsString} {texts : List JsString} (h : text ∈ texts) : text <:+: sep.intercalate texts := by
  induction texts with
  | nil => cases h
  | cons t ts ih =>
      cases ts with
      | nil =>
          refine ⟨[], [], ?_⟩
          rw [List.nil_append, List.append_nil, List.intercalate_singleton, List.mem_singleton.mp h]
      | cons u us =>
          rw [List.intercalate_cons_cons]
          rcases List.mem_cons.mp h with rfl | h
          · rw [List.append_assoc]
            exact List.infix_append' [] _ _
          · exact (ih h).trans (List.suffix_append _ _).isInfix

theorem mem_intercalate {u : UInt16} {sep : JsString} {texts : List JsString} (h : u ∈ sep.intercalate texts) :
    u ∈ sep ∨ ∃ text ∈ texts, u ∈ text := by
  induction texts with
  | nil => cases h
  | cons t ts ih =>
      cases ts with
      | nil =>
          rw [List.intercalate_singleton] at h
          exact .inr ⟨t, List.mem_cons_self, h⟩
      | cons v vs =>
          rw [List.intercalate_cons_cons, List.mem_append, List.mem_append] at h
          rcases h with (h | h) | h
          · exact .inr ⟨t, List.mem_cons_self, h⟩
          · exact .inl h
          · exact (ih h).imp_right fun ⟨text, htext, hu⟩ => ⟨text, List.mem_cons_of_mem _ htext, hu⟩

theorem appears_joinComments {text : JsString} {comments : Option (List JsString)} (h : text ∈ comments.getD []) :
    Appears text ((if joinComments comments = [] then none else some [joinComments comments]).getD []) := by
  have hinfix : text <:+: joinComments comments := infix_intercalate h
  split
  · rename_i hnone
    rw [hnone] at hinfix
    exact .inl (List.infix_nil.mp hinfix)
  · exact .inr ⟨_, List.mem_cons_self, hinfix⟩

/-- The export has every text, those before the first move aside. -/
theorem nodes_keptBy {game' : Game} (hsame : Rose.mapList GameNodeData.plain game'.moves =
      Rose.mapList GameNodeData.plain (Rose.mapList exportData game.moves)) :
    Rose.mapList (fun data : GameNodeData => data.san) game'.moves =
        Rose.mapList (fun data : GameNodeData => data.san) game.moves ∧
      List.Forall₂ (fun data data' : GameNodeData =>
          (∀ text ∈ data.startingComments.getD [], Appears text (data'.startingComments.getD [])) ∧
            ∀ text ∈ data.comments.getD [], Appears text (data'.comments.getD []))
        (Rose.labelsList game.moves) (Rose.labelsList game'.moves) := by
  rw [Rose.mapList_mapList] at hsame
  constructor
  · have hsans := congrArg (Rose.mapList Prod.fst) hsame
    rw [Rose.mapList_mapList, Rose.mapList_mapList] at hsans
    exact hsans
  · have hlabels := congrArg Rose.labelsList hsame
    rw [Rose.labelsList_map, Rose.labelsList_map] at hlabels
    have hplain : List.Forall₂ (fun data data' : GameNodeData => (exportData data).plain = data'.plain)
        (Rose.labelsList game.moves) (Rose.labelsList game'.moves) := by
      rw [← List.forall₂_map_right_iff, ← List.forall₂_map_left_iff, List.forall₂_eq_eq_eq]
      exact hlabels.symm
    refine hplain.imp fun data data' he => ?_
    have hstarting : data.startingComments.getD [] = data'.startingComments.getD [] := congrArg (fun p => p.2.1) he
    have hcomments : (exportData data).comments.getD [] = data'.comments.getD [] := congrArg (fun p => p.2.2.1) he
    refine ⟨fun text htext => ?_, fun text htext => ?_⟩
    · rw [← hstarting]
      exact .inr ⟨text, htext, List.infix_refl text⟩
    · rw [← hcomments]
      exact appears_joinComments htext

/-! ## The exported game -/

theorem siblings_exportData (headers : List (JsString × JsString)) (comments : Option (List JsString)) :
    Game.siblings lib ⟨headers, comments, Rose.mapList exportData game.moves⟩ =
      (game.siblings lib).map (Prod.map id (List.map exportData)) := by
  have hlabels : (Rose.mapList exportData game.moves).map Rose.label = (game.moves.map Rose.label).map exportData := by
    rw [Rose.mapList_eq, List.map_map, List.map_map]
    exact List.map_congr_left fun t _ => Rose.label_map exportData t
  rw [Game.siblings, Game.siblings, Rose.familiesList_mapLabels, hlabels]
  rfl

theorem Game.Legal.exportData (hlegal : game.Legal lib) (headers : List (JsString × JsString))
    (comments : Option (List JsString)) : Game.Legal lib ⟨headers, comments, Rose.mapList exportData game.moves⟩ := by
  intro f hf data hdata
  rw [siblings_exportData] at hf
  obtain ⟨f', hf', rfl⟩ := List.mem_map.mp hf
  obtain ⟨data', hdata', rfl⟩ := List.mem_map.mp hdata
  exact hlegal f' hf' data' hdata'

theorem Game.Unbraced.exportData (h : game.Unbraced) (headers : List (JsString × JsString)) :
    Game.Unbraced ⟨headers, none, Rose.mapList exportData game.moves⟩ := by
  refine ⟨nofun, fun data hdata text htext => ?_, fun data hdata text htext => ?_⟩
  · change data ∈ Rose.labelsList (Rose.mapList Client.exportData game.moves) at hdata
    rw [Rose.labelsList_map] at hdata
    obtain ⟨data', hdata', rfl⟩ := List.mem_map.mp hdata
    exact h.starting data' hdata' text htext
  · change data ∈ Rose.labelsList (Rose.mapList Client.exportData game.moves) at hdata
    rw [Rose.labelsList_map] at hdata
    obtain ⟨data', hdata', rfl⟩ := List.mem_map.mp hdata
    have hjoined : text = joinComments data'.comments := by
      change text ∈ (if joinComments data'.comments = [] then none else some [joinComments data'.comments]).getD [] at htext
      split at htext
      · cases htext
      · exact List.mem_singleton.mp htext
    rw [hjoined]
    intro hmem
    rcases mem_intercalate hmem with hsep | ⟨t, ht, hu⟩
    · exact absurd hsep (by decide)
    · exact h.after data' hdata' t ht hu

end Export

/-! ## A transform that goes depth first -/

section Called

variable {α β γ : Type} {f : γ → α → Int → Option (β × γ × Int)}

theorem Called.append {n k m : Int} {bs ds : List β} (h : Called f n bs k) (hd : Called f k ds m) : Called f n (bs ++ ds) m := by
  induction h with
  | nil n => exact hd
  | cons call _ ih => exact .cons call (ih hd)

mutual
theorem called_threadCount : (t : Rose α) → {c : γ} → {n m : Int} → {t' : Rose β} →
    Rose.threadCount f c n t = some (t', m) → Called f n t'.labels m
  | .node a ts, c, n, m, t', h => by
      rw [Rose.threadCount] at h
      obtain ⟨⟨b, c', k⟩, hcall, h⟩ := Option.bind_eq_some_iff.mp h
      obtain ⟨⟨ts', k'⟩, hts, h⟩ := Option.map_eq_some_iff.mp h
      cases h
      exact .cons hcall (called_threadCountList ts hts)

theorem called_threadCountList : (ts : List (Rose α)) → {c : γ} → {n m : Int} → {ts' : List (Rose β)} →
    Rose.threadCountList f c n ts = some (ts', m) → Called f n (Rose.labelsList ts') m
  | [], c, n, m, ts', h => by
      cases h
      exact .nil n
  | t :: ts, c, n, m, ts', h => by
      rw [Rose.threadCountList] at h
      obtain ⟨⟨u, k⟩, hu, h⟩ := Option.bind_eq_some_iff.mp h
      obtain ⟨⟨us, k'⟩, hus, h⟩ := Option.map_eq_some_iff.mp h
      cases h
      rw [Rose.labelsList_cons]
      exact (called_threadCount t hu).append (called_threadCountList ts hus)
end

end Called

def depthFirst (parsePgn : JsString → Option (List Game)) (makePgn : Game → JsString) : PgnLibrary where
  parsePgn := parsePgn
  makePgn := makePgn
  transform ts c f n := Rose.threadCountList f c n ts
  transform_called ts _ _ _ _ ts' h := ⟨Rose.labelsList ts', called_threadCountList ts h, .refl _⟩
  transform_thread ts c g w n := Rose.threadCountList_eq g w ts c n

end Chessrepeat.Client
