import Vash.Library.Paging
import Vash.Node.Submit
import Vash.Store.IndexInvariants
import Vash.Store.Listing

/-!
# Listing the keys of a sharded store

`VashStore::list_keys` goes through the shards one after the other, and through each in
key order, until the page is full or its budget is used up. The cursor names the shard
and the key it stopped at, the shard in sixteen bits.

* `listing_is_exact` — every walk lists what it should.
-/

namespace Vash.Node

open Library Store

/-! ### One shard -/

/-- `ShardScan`. -/
structure ShardScan where
  entries : List ListEntry := []
  scanned : Nat := 0
  stoppedAt : Option Bytes := none
  budgetExhausted : Bool := false
  deriving DecidableEq, Repr

section Scan

variable (sh : Shard) (now : Nat) (request : ListRequest)

/-- The record is live and its key matches. -/
def wantedRow (row : Bytes × Record) : Bool :=
  row.2.isAlive now sh.engine.epoch sh.engine.registry.generation && request.matches row.1

def rowEntry (row : Bytes × Record) : ListEntry :=
  .record row.1 row.2.header.cas row.2.header.expiresAtMs

/-- The scan once a row has been looked at. -/
def ShardScan.look (scan : ShardScan) (row : Bytes × Record) : ShardScan where
  entries := if wantedRow sh now request row then scan.entries ++ [rowEntry row] else scan.entries
  scanned := scan.scanned + 1
  stoppedAt := scan.stoppedAt
  budgetExhausted := scan.budgetExhausted

variable (limit budget : Nat)

/-- The loop of `Engine::list_keys`. Records are kept decoded here, so none is skipped as
unreadable. -/
def scanRows : List (Bytes × Record) → ShardScan → ShardScan
  | [], scan => scan
  | row :: rest, scan =>
    let scan := scan.look sh now request row
    if scan.entries.length ≥ limit then { scan with stoppedAt := some row.1 }
    else if scan.scanned ≥ budget then
      { scan with stoppedAt := some row.1, budgetExhausted := true }
    else scanRows rest scan

/-- The rows of a shard behind a key. -/
def rowsBehind (after : Option Bytes) : List (Bytes × Record) :=
  sh.tables.main.rows.filter fun row => after.all (· < row.1)

/-- `Engine::list_keys`. -/
def scanShard (after : Option Bytes) : ShardScan :=
  scanRows sh now request limit budget (rowsBehind sh after) {}

end Scan

/-! ### The store -/

section Store

variable {n : Nat} (request : ListRequest) (maxScan : Nat)

/-- The loop of `list_keys` over the shards still to scan. -/
def listShards : List (Fin n) → Option Bytes → Listing → NodeCall n Listing
  | [], _, listing => .done listing
  | shard :: rest, after, listing =>
    .look shard fun sh now =>
      let scan := scanShard sh now request (request.limit - listing.entries.length)
        (maxScan - listing.scanned) after
      let listing := { listing with
        scanned := listing.scanned + scan.scanned
        entries := listing.entries ++ scan.entries }
      match scan.stoppedAt with
      | some stopped => .done { listing with
          cursor := some (Listing.encode shard stopped)
          truncated := scan.budgetExhausted }
      | none => listShards rest none listing

/-- `list_keys`. -/
def listKeys : NodeCall n Listing :=
  match Listing.decode request.cursor n with
  | .error e => .fail (.core e)
  | .ok (start, after) => listShards request maxScan ((List.finRange n).drop start) after {}

end Store

/-! ### The store as one sequence -/

/-- A position in the keyspace: a shard, and a key in it. -/
abbrev Position (n : Nat) := Fin n ×ₗ Bytes

section Positions

variable {n : Nat} [NeZero n] {hash : Bytes → Nat}

/-- The keys that belong into a shard. -/
def homeKeys (hash : Bytes → Nat) (i : Fin n) : Set Bytes :=
  { key | IsKey key ∧ forKey hash key = i }

/-- The shards of a store as a page finds them, each with the moment it is read at; every
key is in the shard it is routed to. -/
structure Keyspace (n : Nat) [NeZero n] (hash : Bytes → Nat) where
  view : Fin n → Shard × Nat
  home : ∀ i, (view i).1.tables.KeysIn (homeKeys hash i)

namespace Keyspace

variable (space : Keyspace n hash) (request : ListRequest)

/-- A `get` of the key would hit. -/
def hits (key : Bytes) : Bool :=
  ((space.view (forKey hash key)).1.get (space.view (forKey hash key)).2 key).isSome

/-- The positions of some rows of a shard. -/
def positionsOf (i : Fin n) (rows : List (Bytes × Record)) : List (Position n) :=
  rows.map fun row => toLex (i, row.1)

/-- The positions of a list of shards, those of the first from behind a key. -/
def positionsFrom (after : Option Bytes) : List (Fin n) → List (Position n)
  | [] => []
  | i :: rest => positionsOf i (rowsBehind (space.view i).1 after) ++
      rest.flatMap fun j => positionsOf j (space.view j).1.tables.main.rows

/-- The key at a position belongs into a listing. -/
def wanted (position : Position n) : Bool :=
  space.hits (ofLex position).2 && request.matches (ofLex position).2

/-- The position of an entry. -/
def positionOf (hash : Bytes → Nat) (entry : ListEntry) : Position n :=
  toLex (forKey hash entry.name, entry.name)

variable {space}

/-- The key of a row is at home in the row's shard, and wanted if the row is. -/
theorem of_row {i : Fin n} {row : Bytes × Record} (mem : row ∈ (space.view i).1.tables.main.rows) :
    IsKey row.1 ∧ forKey hash row.1 = i ∧ space.wanted request (toLex (i, row.1)) =
      wantedRow (space.view i).1 (space.view i).2 request row := by
  have stored : (space.view i).1.tables.main.get row.1 = some row.2 :=
    Table.get_eq_some_iff.mpr mem
  obtain ⟨isKey, home⟩ := space.home i row.1 row.2 stored
  refine ⟨isKey, home, ?_⟩
  have hit : space.hits row.1 = row.2.isAlive (space.view i).2 (space.view i).1.engine.epoch
      (space.view i).1.engine.registry.generation := by
    rw [hits, home, Bool.eq_iff_iff, Option.isSome_iff_exists]
    unfold Shard.get
    simp only [readAlive_eq_some_iff, stored, Option.some.injEq]
    constructor
    · rintro ⟨_, _, rfl, alive, -⟩
      exact alive
    · exact fun alive => ⟨_, _, rfl, alive, rfl⟩
  exact congrArg (· && request.matches row.1) hit

variable {request}

/-- The scan of a shard is the part of a page that lies in it. -/
theorem scanRows_page {i : Fin n} {limit maxScan seen : Nat} {before more : List (Position n)}
    {rows : List (Bytes × Record)} (inside : ∀ row ∈ rows, row ∈ (space.view i).1.tables.main.rows)
    {scan result : ShardScan}
    (scanned : scanRows (space.view i).1 (space.view i).2 request (limit - before.length)
      (maxScan - seen) rows scan = result)
    (running : scan.stoppedAt = none) (room : before.length + scan.entries.length < limit)
    (budget : seen + scan.scanned < maxScan) :
    (result.stoppedAt = none ∧ before.length + result.entries.length < limit ∧
      seen + result.scanned < maxScan ∧
      pageFrom (space.wanted request) limit maxScan (positionsOf i rows ++ more)
        (before ++ scan.entries.map (positionOf hash)) (seen + scan.scanned) =
      pageFrom (space.wanted request) limit maxScan more
        (before ++ result.entries.map (positionOf hash)) (seen + result.scanned)) ∨
    ∃ stopped, result.stoppedAt = some stopped ∧
      pageFrom (space.wanted request) limit maxScan (positionsOf i rows ++ more)
        (before ++ scan.entries.map (positionOf hash)) (seen + scan.scanned) =
      (before ++ result.entries.map (positionOf hash), some (toLex (i, stopped))) := by
  induction rows generalizing scan with
  | nil =>
    subst scanned
    exact .inl ⟨running, room, budget, rfl⟩
  | cons row rest ih =>
    obtain ⟨-, home, wants⟩ := of_row request (inside row List.mem_cons_self)
    have looked : (if space.wanted request (toLex (i, row.1)) = true then
        before ++ scan.entries.map (positionOf hash) ++ [toLex (i, row.1)]
      else before ++ scan.entries.map (positionOf hash)) =
        before ++ (scan.look (space.view i).1 (space.view i).2 request row).entries.map
          (positionOf hash) := by
      rw [wants]
      unfold ShardScan.look
      dsimp only
      split
      · simp [positionOf, rowEntry, ListEntry.record, home]
      · rfl
    rw [scanRows] at scanned
    simp only [positionsOf, List.map_cons, List.cons_append, pageFrom, looked,
      List.length_append, List.length_map]
    generalize next : scan.look (space.view i).1 (space.view i).2 request row = scan' at scanned
    have count : scan'.scanned = scan.scanned + 1 := by rw [← next]; rfl
    have running' : scan'.stoppedAt = none := by rw [← next]; exact running
    by_cases full : limit - before.length ≤ scan'.entries.length
    · rw [if_pos full] at scanned
      subst scanned
      exact .inr ⟨row.1, rfl, by rw [if_pos (.inl (by omega))]⟩
    · rw [if_neg full] at scanned
      by_cases spent : maxScan - seen ≤ scan'.scanned
      · rw [if_pos spent] at scanned
        subst scanned
        exact .inr ⟨row.1, rfl, by rw [if_pos (.inr (by omega))]⟩
      · rw [if_neg spent] at scanned
        rw [if_neg (by omega), Nat.add_assoc, ← count]
        exact ih (fun row mem => inside row (List.mem_cons_of_mem _ mem)) scanned running'
          (by omega) (by omega)

theorem positionsFrom_none (shards : List (Fin n)) :
    space.positionsFrom none shards =
      shards.flatMap fun i => positionsOf i (space.view i).1.tables.main.rows := by
  cases shards with
  | nil => rfl
  | cons i rest => simp [positionsFrom, rowsBehind]

/-- The cursor of a position. -/
def cursorOf (position : Position n) : Bytes :=
  Listing.encode (ofLex position).1 (ofLex position).2

/-- The scans of the shards one after the other make one page. -/
theorem listShards_page {maxScan : Nat} (shards : List (Fin n)) (after : Option Bytes)
    (listing : Listing) (room : listing.entries.length < request.limit)
    (budget : listing.scanned < maxScan) (running : listing.cursor = none) :
    ∃ page, (listShards request maxScan shards after listing).read space.view = some page ∧
      page.entries.map (positionOf hash) =
        (pageFrom (space.wanted request) request.limit maxScan (space.positionsFrom after shards)
          (listing.entries.map (positionOf hash)) listing.scanned).1 ∧
      page.cursor =
        (pageFrom (space.wanted request) request.limit maxScan (space.positionsFrom after shards)
          (listing.entries.map (positionOf hash)) listing.scanned).2.map cursorOf := by
  induction shards generalizing after listing with
  | nil => exact ⟨listing, rfl, rfl, running⟩
  | cons i rest ih =>
    have scan := @scanRows_page n _ hash space request i request.limit maxScan listing.scanned
      (listing.entries.map (positionOf hash))
      (rest.flatMap fun j => positionsOf j (space.view j).1.tables.main.rows)
      (rowsBehind (space.view i).1 after) (fun row mem => List.mem_of_mem_filter mem) {} _
      rfl rfl (by simpa using room) (by simpa using budget)
    rw [listShards, Call.read, positionsFrom]
    dsimp only [scanShard]
    rw [List.length_map] at scan
    generalize scanRows (space.view i).1 (space.view i).2 request
      (request.limit - listing.entries.length) (maxScan - listing.scanned)
      (rowsBehind (space.view i).1 after) {} = result at scan ⊢
    simp only [List.map_nil, List.append_nil, Nat.add_zero] at scan
    rcases scan with ⟨through, room', budget', joined⟩ | ⟨stopped, stops, joined⟩
    · rw [through, joined, ← positionsFrom_none, ← List.map_append]
      exact ih none _ (by simpa using room') budget' running
    · rw [stops, joined]
      exact ⟨_, rfl, by simp, rfl⟩

variable (space) in
/-- The positions of all records, shard by shard. -/
def positions : List (Position n) := space.positionsFrom none (List.finRange n)

theorem mem_positions {position : Position n} :
    position ∈ space.positions ↔
      ((space.view (ofLex position).1).1.tables.main.get (ofLex position).2).isSome = true := by
  rw [positions, positionsFrom_none, Option.isSome_iff_exists]
  simp only [List.mem_flatMap, List.mem_finRange, true_and, positionsOf, List.mem_map,
    Table.get_eq_some_iff]
  constructor
  · rintro ⟨i, row, mem, rfl⟩
    exact ⟨row.2, mem⟩
  · rintro ⟨r, mem⟩
    exact ⟨_, _, mem, rfl⟩

theorem home_of_mem {position : Position n} (mem : position ∈ space.positions) :
    IsKey (ofLex position).2 ∧ forKey hash (ofLex position).2 = (ofLex position).1 := by
  obtain ⟨r, stored⟩ := Option.isSome_iff_exists.mp (mem_positions.mp mem)
  exact space.home _ _ r stored

theorem positions_sorted : space.positions.Pairwise (· < ·) := by
  rw [positions, positionsFrom_none, List.pairwise_flatMap]
  constructor
  · intro i _
    refine List.pairwise_map.mpr ((space.view i).1.tables.main.sorted.imp fun lt => ?_)
    exact Prod.Lex.toLex_lt_toLex.mpr (.inr ⟨rfl, lt⟩)
  · refine (List.pairwise_lt_finRange n).imp ?_
    intro i j less p mem q mem'
    obtain ⟨row, -, rfl⟩ := List.mem_map.mp mem
    obtain ⟨row', -, rfl⟩ := List.mem_map.mp mem'
    exact Prod.Lex.toLex_lt_toLex.mpr (.inl less)

/-- The positions behind one of them: the rest of its shard, and the shards after it. -/
theorem behind_positions (i : Fin n) (key : Bytes) :
    behind (some (toLex (i, key))) space.positions =
      space.positionsFrom (some key) ((List.finRange n).drop i) := by
  have inner : ∀ j, behind (some (toLex (i, key)))
      (positionsOf j (space.view j).1.tables.main.rows) =
      if j < i then [] else if j = i then positionsOf j (rowsBehind (space.view j).1 (some key))
        else positionsOf j (space.view j).1.tables.main.rows := by
    intro j
    simp only [behind, positionsOf, rowsBehind, List.filter_map, Option.all_some]
    rcases lt_trichotomy j i with less | rfl | more
    · rw [if_pos less, List.map_eq_nil_iff, List.filter_eq_nil_iff]
      intro row _ past
      exact absurd (of_decide_eq_true past)
        (Prod.Lex.toLex_lt_toLex.mpr (.inl less) : toLex (j, row.1) < toLex (i, key)).not_gt
    · rw [if_neg (lt_irrefl _), if_pos rfl]
      refine congrArg _ (List.filter_congr fun row _ => decide_eq_decide.mpr ?_)
      refine Prod.Lex.toLex_lt_toLex.trans ?_
      simp
    · rw [if_neg more.not_gt, if_neg more.ne', List.filter_eq_self.mpr]
      exact fun row _ => decide_eq_true (Prod.Lex.toLex_lt_toLex.mpr (.inl more))
  have ahead : ∀ j ∈ (List.finRange n).take i, j < i := by
    intro j mem
    obtain ⟨k, inside, rfl⟩ := List.mem_take_iff_getElem.mp mem
    rw [List.getElem_finRange, Fin.lt_def]
    exact (lt_min_iff.mp inside).1
  have later : ∀ j ∈ (List.finRange n).drop (i + 1), i < j := by
    intro j mem
    obtain ⟨k, inside, rfl⟩ := List.mem_drop_iff_getElem.mp mem
    rw [List.getElem_finRange, Fin.lt_def]
    exact Nat.lt_of_lt_of_le (Nat.lt_succ_self _) (Nat.le_add_right _ _)
  have here : (List.finRange n).drop i = i :: (List.finRange n).drop (i + 1) := by
    rw [List.drop_eq_getElem_cons (by simp), List.getElem_finRange]
    rfl
  have front : ((List.finRange n).take i).flatMap (fun j => behind (some (toLex (i, key)))
      (positionsOf j (space.view j).1.tables.main.rows)) = [] := by
    refine List.flatMap_eq_nil_iff.mpr fun j mem => ?_
    rw [inner, if_pos (ahead j mem)]
  have back : ((List.finRange n).drop (i + 1)).flatMap (fun j => behind (some (toLex (i, key)))
      (positionsOf j (space.view j).1.tables.main.rows)) =
      ((List.finRange n).drop (i + 1)).flatMap fun j =>
        positionsOf j (space.view j).1.tables.main.rows := by
    refine List.flatMap_congr fun j mem => ?_
    rw [inner, if_neg (later j mem).not_gt, if_neg (later j mem).ne']
  have whole : behind (some (toLex (i, key))) space.positions =
      (List.finRange n).flatMap fun j => behind (some (toLex (i, key)))
        (positionsOf j (space.view j).1.tables.main.rows) := by
    rw [positions, positionsFrom_none, behind, List.filter_flatMap]
    rfl
  rw [whole, ← List.take_append_drop i (List.finRange n), List.flatMap_append, front,
    List.take_append_drop, here, List.nil_append, List.flatMap_cons, back, inner,
    if_neg (lt_irrefl i), if_pos rfl]
  rfl

end Keyspace

/-! ### Walks -/

section Walk

variable (history : Nat → Keyspace n hash) (request : ListRequest) (maxScan : Nat)

/-- The pages a client gets that feeds each cursor back, each made of what the store is by
then, and whether the last one came without a cursor. -/
def walk : Nat → Nat → Bytes → List Listing × Bool
  | 0, _, _ => ([], false)
  | fuel + 1, k, cursor =>
    match (listKeys { request with cursor } maxScan).read (history k).view with
    | none => ([], false)
    | some page =>
      match page.cursor with
      | none => ([page], true)
      | some next =>
        let rest := walk fuel (k + 1) next
        (page :: rest.1, rest.2)

/-- The names on some pages. -/
def pageNames (pages : List Listing) : List Bytes :=
  pages.flatMap fun page => page.entries.map ListEntry.name

/-- From some page on no key is new. -/
def StopsGrowing : Prop :=
  ∃ settled, ∀ k, settled ≤ k → ∀ i key, ((history k).view i).1.tables.main.get key ≠ none →
    ((history settled).view i).1.tables.main.get key ≠ none

/-- A walk from the beginning lists what it should. -/
structure Exact : Prop where
  ends : StopsGrowing history → ∃ fuel, (walk history request maxScan fuel 0 []).2 = true
  once : ∀ fuel, (pageNames (walk history request maxScan fuel 0 []).1).Nodup
  hits : ∀ fuel k page, (walk history request maxScan fuel 0 []).1[k]? = some page →
    ∀ entry ∈ page.entries, request.matches entry.name = true ∧ (history k).hits entry.name = true
  complete : ∀ fuel, (walk history request maxScan fuel 0 []).2 = true →
    ∀ key, request.matches key = true →
      (∀ k < (walk history request maxScan fuel 0 []).1.length, (history k).hits key = true) →
        (pageNames (walk history request maxScan fuel 0 []).1).count key = 1

/-- The store as a sequence of positions that changes from page to page. -/
def changing : Changing (Position n) where
  rows k := (history k).positions
  wanted k := (history k).wanted request
  sorted _ := Keyspace.positions_sorted

/-- The cursor stands for the position to resume behind. -/
inductive Resumes : Bytes → Option (Position n) → Prop
  | start : Resumes [] none
  | behind {position : Position n} (isKey : IsKey (ofLex position).2)
      (fits : (ofLex position).1.val < 2 ^ 16) :
      Resumes (Keyspace.cursorOf position) (some position)

variable {request maxScan}

/-- A page is a page of the sequence. -/
theorem listKeys_page (positive : 0 < request.limit) (budget : 0 < maxScan) {cursor : Bytes}
    {after : Option (Position n)} (resumes : Resumes cursor after) (k : Nat) :
    ∃ page, (listKeys { request with cursor } maxScan).read (history k).view = some page ∧
      page.entries.map (Keyspace.positionOf hash) =
        ((changing history request).page request.limit maxScan k after).1 ∧
      page.cursor =
        ((changing history request).page request.limit maxScan k after).2.map
          Keyspace.cursorOf := by
  have read : ∃ start key, Listing.decode cursor n = .ok (start, key) ∧
      behind after (history k).positions =
        (history k).positionsFrom key ((List.finRange n).drop start) := by
    cases resumes with
    | start => exact ⟨0, none, rfl, by simp [behind, Keyspace.positions]⟩
    | @behind position isKey fits =>
      have index : (ofLex position).1.val % 2 ^ 16 = (ofLex position).1.val :=
        Nat.mod_eq_of_lt fits
      refine ⟨(ofLex position).1, some (ofLex position).2, ?_, Keyspace.behind_positions _ _⟩
      rw [Keyspace.cursorOf, Listing.decode_encode isKey (by rw [index]; exact Fin.isLt _), index]
  obtain ⟨start, key, decoded, rest⟩ := read
  rw [listKeys, decoded, Changing.page]
  change ∃ page, (listShards { request with cursor } maxScan ((List.finRange n).drop start) key
    {}).read (history k).view = some page ∧ _
  simp only [changing, rest]
  exact Keyspace.listShards_page _ key {} positive budget rfl

variable {history}

/-- The pages of a walk are those of the sequence. -/
theorem walk_refines (positive : 0 < request.limit) (budget : 0 < maxScan)
    (fits : ∀ key, IsKey key → (forKey hash key : Fin n).val < 2 ^ 16) (fuel k : Nat)
    {cursor : Bytes} {after : Option (Position n)} (resumes : Resumes cursor after) :
    (walk history request maxScan fuel k cursor).1.map
        (fun page => page.entries.map (Keyspace.positionOf hash)) =
      ((changing history request).walk request.limit maxScan fuel k after).1 ∧
    (walk history request maxScan fuel k cursor).2 =
      ((changing history request).walk request.limit maxScan fuel k after).2 := by
  induction fuel generalizing k cursor after with
  | zero => exact ⟨rfl, rfl⟩
  | succ fuel ih =>
    obtain ⟨page, read, entries, stops⟩ := listKeys_page history positive budget resumes k
    rw [walk, read]
    dsimp only
    obtain ⟨⟨ends, -⟩ | ⟨last, stopped, there, -⟩, -⟩ :=
      (changing history request).page_spec request.limit maxScan k after
    · rw [ends] at stops
      rw [Changing.walk_of_end ends, stops]
      exact ⟨by rw [← entries]; rfl, rfl⟩
    · rw [stopped] at stops
      rw [Changing.walk_of_stop stopped, stops]
      obtain ⟨isKey, home⟩ := Keyspace.home_of_mem there
      have next := ih (k + 1) (.behind isKey (home ▸ fits _ isKey))
      exact ⟨by rw [← entries, ← next.1]; rfl, next.2⟩

theorem positions_of_pages (pages : List Listing) :
    (pages.map fun page => page.entries.map (Keyspace.positionOf hash)).flatten =
      (pageNames pages).map fun name => (toLex (forKey hash name, name) : Position n) := by
  simp only [pageNames, List.flatMap_def, List.map_flatten, List.map_map, Function.comp_def]
  rfl

/-- A walk lists what it should if the indices of the shards fit the cursor. -/
theorem exact_of_fits (history : Nat → Keyspace n hash) (positive : 0 < request.limit)
    (budget : 0 < maxScan) (fits : ∀ key, IsKey key → (forKey hash key : Fin n).val < 2 ^ 16) :
    Exact history request maxScan := by
  have refines : ∀ fuel, (walk history request maxScan fuel 0 []).1.map
        (fun page => page.entries.map (Keyspace.positionOf hash)) =
      ((changing history request).walk request.limit maxScan fuel 0 none).1 ∧ _ :=
    fun fuel => walk_refines positive budget fits fuel 0 .start
  have once : ∀ fuel, (pageNames (walk history request maxScan fuel 0 []).1).Nodup := by
    intro fuel
    have ascending :=
      ((changing history request).walk_ascending request.limit maxScan fuel 0 none).1
    rw [← (refines fuel).1, positions_of_pages] at ascending
    exact List.Nodup.of_map _ (ascending.imp ne_of_lt)
  refine ⟨?_, once, ?_, ?_⟩
  · rintro ⟨settled, grown⟩
    have within : ∀ j, settled ≤ j → ∀ position ∈ (changing history request).rows j,
        position ∈ (changing history request).rows settled := by
      intro j late position mem
      have there := Keyspace.mem_positions.mp mem
      refine Keyspace.mem_positions.mpr ?_
      rw [Option.isSome_iff_ne_none] at there ⊢
      exact grown j late _ _ there
    obtain ⟨fuel, ended⟩ :=
      (changing history request).walk_ends request.limit maxScan within none
    exact ⟨fuel, (refines fuel).2.trans ended⟩
  · intro fuel k page found entry mem
    have listed : ((changing history request).walk request.limit maxScan fuel 0 none).1[k]? =
        some (page.entries.map (Keyspace.positionOf hash)) := by
      rw [← (refines fuel).1, List.getElem?_map, found]
      rfl
    have kept := ((changing history request).walk_kept request.limit maxScan fuel 0 none listed
      (List.mem_map_of_mem mem)).2
    rw [Nat.zero_add] at kept
    exact (Bool.and_eq_true_iff.mp kept).symm
  · intro fuel ended key matched stays
    have stays' : ∀ j < ((changing history request).walk request.limit maxScan fuel 0
          none).1.length,
        toLex (forKey hash key, key) ∈ (changing history request).rows (0 + j) ∧
          (changing history request).wanted (0 + j) (toLex (forKey hash key, key)) = true := by
      intro j inside
      rw [← (refines fuel).1, List.length_map] at inside
      have hit := stays j inside
      rw [Nat.zero_add]
      refine ⟨Keyspace.mem_positions.mpr ?_, Bool.and_eq_true_iff.mpr ⟨hit, matched⟩⟩
      obtain ⟨value, got⟩ := Option.isSome_iff_exists.mp hit
      obtain ⟨r, stored, -⟩ := readAlive_eq_some_iff.mp got
      exact Option.isSome_iff_exists.mpr ⟨r, stored⟩
    have listed := (changing history request).walk_complete request.limit maxScan fuel 0 none
      ((refines fuel).2.symm.trans ended) rfl stays'
    rw [← (refines fuel).1, positions_of_pages] at listed
    obtain ⟨name, mem, same⟩ := List.mem_map.mp listed
    obtain rfl : name = key := congrArg (fun position : Position n => (ofLex position).2) same
    exact List.count_eq_one_of_mem (once fuel) mem

end Walk

/-! ### One key -/

section Lonely

variable (key : Bytes)

/-- A record that lives for good. -/
def lastingRecord : Record := ⟨⟨0, 0, never, 1⟩, [], [], Nat.zero_le _⟩

/-- A shard that holds the key, or nothing. -/
def lonelyShard (holds : Bool) : Shard :=
  .open (firstByteConfig 1000)
    { Tables.created with main := if holds then Table.put ∅ key lastingRecord else ∅ } []

theorem lonelyShard_get (holds : Bool) (other : Bytes) :
    (lonelyShard key holds).tables.main.get other =
      if holds = true ∧ other = key then some lastingRecord else none := by
  cases holds with
  | true => simp [lonelyShard, Shard.open, Table.get_put]
  | false =>
    simp only [lonelyShard, Shard.open, Bool.false_eq_true, if_false, false_and]
    rfl

/-- A store with one key. -/
def lonely (isKey : IsKey key) : Keyspace n hash where
  view i := (lonelyShard key (forKey hash key = i), 0)
  home := by
    intro i other r found
    rw [lonelyShard_get] at found
    split at found
    · rename_i here
      obtain ⟨home, rfl⟩ := here
      exact ⟨isKey, of_decide_eq_true home⟩
    · cases found

variable {key} (isKey : IsKey key)

theorem lonely_hits : (lonely key isKey : Keyspace n hash).hits key = true := by
  refine Option.isSome_iff_exists.mpr ⟨lastingRecord.toValue, readAlive_eq_some_iff.mpr
    ⟨lastingRecord, ?_, ?_, rfl⟩⟩
  · simp [lonely, lonelyShard_get]
  · simp [lastingRecord, Record.isAlive, Record.isExpired, Record.isFlushed, Record.tagsAlive,
      Shard.snapshot, lonely, lonelyShard, Shard.open, Tables.created]

end Lonely

/-- Every walk, through whatever the store becomes between its pages, lists the keys it should
and ends when it should. An environment takes a thread-specific key of the process, which has
fewer than `2 ^ 16` of them, so the index of a shard fits the two bytes it has in a cursor. -/
theorem listing_is_exact (node : VashStore n) (openable : n ≤ 2 ^ 16)
    (history : Nat → Keyspace n node.hash) {request : ListRequest} {maxScan : Nat}
    (positive : 1 ≤ request.limit) (budget : 1 ≤ maxScan) : Exact history request maxScan :=
  exact_of_fits history positive budget fun _ _ => (Fin.isLt _).trans_le openable

end Positions

/-- A store of three shards with one key. -/
theorem listing_is_exact_three :
    let node : VashStore 3 := ⟨List.length, .stable 3, 8⟩
    let space : Keyspace 3 node.hash := lonely [1] (by decide)
    space.hits [1] = true ∧ Exact (fun _ => space) ⟨1, [], []⟩ 1 := by
  intro node space
  exact ⟨lonely_hits _, listing_is_exact node (by decide) _ le_rfl le_rfl⟩

end Vash.Node
