import Vash.Memory.Inner
import Vash.Store.Listing

/-!
# Listing the keys of the store in memory

`MemoryStore::list_keys` walks the records in key order from behind its cursor,
until a page is full or its budget is used up. A full page names the key it ended
on; a page whose budget is used up names the next key, which it has not looked at,
and the page after it resumes behind that key.

* `skipped` — the records in front of which a budget runs out, as the contents, the limit
  and the budget have it.
* `walk_complete_iff` — a walk lists every wanted key once exactly when none is skipped.
* `walk_skips_a_key` — such a walk.
-/

namespace Vash.Memory

open Library

/-! ### A page -/

section Page

variable (inner : Inner) (now : Nat) (request : ListRequest) (maxScan : Nat)

/-- The record belongs in the reply. -/
def wanted (row : Bytes × Entry) : Bool := inner.alive row.2 now && request.matches row.1

def entryOf (row : Bytes × Entry) : ListEntry := .record row.1 row.2.cas row.2.expiresAtMs

/-- The loop of `list_keys`. -/
def listFrom (after : Option Bytes) : List (Bytes × Entry) → Listing → Listing
  | [], listing => listing
  | row :: rest, listing =>
    if after.any (row.1 ≤ ·) then listFrom after rest listing
    else if listing.scanned ≥ maxScan then
      { listing with truncated := true, cursor := some (Listing.encode 0 row.1) }
    else
      let scanned := { listing with scanned := listing.scanned + 1 }
      if !inner.alive row.2 now || !request.matches row.1 then listFrom after rest scanned
      else
        let listed := { scanned with entries := scanned.entries ++ [entryOf row] }
        if listed.entries.length ≥ request.limit then
          { listed with cursor := some (Listing.encode 0 row.1) }
        else listFrom after rest listed

/-- `MemoryStore::list_keys`. -/
def listKeys : Except CoreError Listing := do
  let (_, after) ← Listing.decode request.cursor 1
  return listFrom inner now request maxScan after inner.entries.rows {}

/-- The entries of some rows. -/
def listed (rows : List (Bytes × Entry)) : List ListEntry :=
  (rows.filter (wanted inner now request)).map entryOf

/-- How a page over `rows` ends, from what it had listed before. -/
inductive Page (rows : List (Bytes × Entry)) (before listing : Listing) : Prop
  | complete (entries : listing.entries = before.entries ++ listed inner now request rows)
      (cursor : listing.cursor = before.cursor)
      (open_ : listing.entries.length < max 1 request.limit)
      (scanned : before.scanned + rows.length ≤ maxScan)
  | full (front : List (Bytes × Entry)) (row : Bytes × Entry) (back : List (Bytes × Entry))
      (split : rows = front ++ row :: back) (last : wanted inner now request row = true)
      (entries : listing.entries = before.entries ++ listed inner now request (front ++ [row]))
      (cursor : listing.cursor = some (Listing.encode 0 row.1))
      (closed : listing.entries.length = max 1 request.limit)
      (scanned : before.scanned + front.length < maxScan)
  | exhausted (front : List (Bytes × Entry)) (row : Bytes × Entry) (back : List (Bytes × Entry))
      (split : rows = front ++ row :: back)
      (entries : listing.entries = before.entries ++ listed inner now request front)
      (cursor : listing.cursor = some (Listing.encode 0 row.1))
      (open_ : listing.entries.length < max 1 request.limit)
      (scanned : before.scanned + front.length = maxScan)

end Page

section PageLemmas

variable {inner : Inner} {now : Nat} {request : ListRequest} {maxScan : Nat}

theorem listed_append (rows more : List (Bytes × Entry)) :
    listed inner now request (rows ++ more) =
      listed inner now request rows ++ listed inner now request more := by
  rw [listed, List.filter_append, List.map_append]
  rfl

/-- One row more in front of a page. -/
theorem Page.cons {row : Bytes × Entry} {rest : List (Bytes × Entry)}
    {before before' listing : Listing}
    (entries : before'.entries = before.entries ++ listed inner now request [row])
    (cursor : before'.cursor = before.cursor) (scanned : before'.scanned = before.scanned + 1)
    (page : Page inner now request maxScan rest before' listing) :
    Page inner now request maxScan (row :: rest) before listing := by
  have joined : ∀ rows, before'.entries ++ listed inner now request rows =
      before.entries ++ listed inner now request (row :: rows) := by
    intro rows
    rw [entries, List.append_assoc, ← listed_append, List.singleton_append]
  have longer : ∀ rows : List (Bytes × Entry),
      before.scanned + (row :: rows).length = before'.scanned + rows.length := by
    intro rows
    rw [scanned, List.length_cons]
    omega
  cases page with
  | complete entries' cursor' open_ scanned' =>
    exact .complete (by rw [entries', joined]) (cursor'.trans cursor) open_ (longer _ ▸ scanned')
  | full front last back split wanted' entries' cursor' closed scanned' =>
    exact .full (row :: front) last back (by rw [split, List.cons_append]) wanted'
      (by rw [entries', joined, List.cons_append]) cursor' closed (longer _ ▸ scanned')
  | exhausted front next back split entries' cursor' open_ scanned' =>
    exact .exhausted (row :: front) next back (by rw [split, List.cons_append])
      (by rw [entries', joined]) cursor' open_ (longer _ ▸ scanned')

/-- The rows a cursor leaves to look at. -/
def behind (after : Option Bytes) (rows : List (Bytes × Entry)) : List (Bytes × Entry) :=
  rows.filter fun row => !after.any (row.1 ≤ ·)

/-- A page over the rows behind the cursor. -/
theorem listFrom_page (after : Option Bytes) (rows : List (Bytes × Entry)) (before : Listing)
    (open_ : before.entries.length < max 1 request.limit) (within : before.scanned ≤ maxScan) :
    Page inner now request maxScan (behind after rows) before
      (listFrom inner now request maxScan after rows before) := by
  induction rows generalizing before with
  | nil => exact .complete (by simp [listFrom, behind, listed]) rfl open_ within
  | cons row rest ih =>
    unfold listFrom
    by_cases skipped : after.any (row.1 ≤ ·) = true
    · rw [if_pos skipped, behind, List.filter_cons_of_neg (by simp [skipped])]
      exact ih before open_ within
    · have here : behind after (row :: rest) = row :: behind after rest :=
        List.filter_cons_of_pos (by simpa using skipped)
      rw [if_neg skipped, here]
      split
      · -- The budget is used up, and the row is not looked at.
        rename_i used
        exact .exhausted [] row _ rfl (by simp [listed]) rfl open_ (le_antisymm within used)
      · rename_i budget
        dsimp only
        split
        · rename_i unwanted
          have nothing : listed inner now request [row] = [] := by
            rw [listed, List.filter_cons_of_neg, List.filter_nil, List.map_nil]
            rw [wanted]
            cases alive : inner.alive row.2 now <;> simp_all
          refine .cons ?_ ?_ ?_ (ih _ open_ (Nat.lt_of_not_le budget))
          · rw [nothing, List.append_nil]
          · rfl
          · rfl
        · rename_i isWanted
          have last : wanted inner now request row = true := by
            simpa [wanted] using isWanted
          have one : listed inner now request [row] = [entryOf row] := by
            simp [listed, last]
          rw [List.length_append, List.length_singleton]
          split
          · rename_i many
            refine .full [] row _ rfl last (by rw [List.nil_append, one]) rfl ?_
              (Nat.lt_of_not_le budget)
            rw [List.length_append, List.length_singleton]
            omega
          · rename_i few
            refine .cons ?_ ?_ ?_ (ih _ ?_ (Nat.lt_of_not_le budget))
            · rw [one]
            · rfl
            · rfl
            · rw [List.length_append, List.length_singleton]
              omega

/-! ### What the budgets skip -/

section Skipped

variable {α : Type}

/-- The rows behind the first `count + 1` that satisfy `p`. -/
def behindNth (p : α → Bool) : Nat → List α → List α
  | _, [] => []
  | 0, row :: rest => if p row then rest else behindNth p 0 rest
  | count + 1, row :: rest => behindNth p (if p row then count else count + 1) rest

theorem length_behindNth_lt {p : α → Bool} {count : Nat} {rows : List α}
    (many : count < rows.countP p) : (behindNth p count rows).length < rows.length := by
  induction rows generalizing count with
  | nil => simp at many
  | cons row rest ih =>
    rw [List.countP_cons] at many
    rw [List.length_cons]
    cases count with
    | zero =>
      rw [behindNth]
      split
      · omega
      · rename_i no
        exact (ih (by simpa [no] using many)).trans (by omega)
    | succ count =>
      rw [behindNth]
      split
      · rename_i yes
        exact (ih (by simpa [yes] using many)).trans (by omega)
      · rename_i no
        exact (ih (by simpa [no] using many)).trans (by omega)

theorem behindNth_split {p : α → Bool} {front back : List α} {row : α} (last : p row = true) :
    behindNth p (front.countP p) (front ++ row :: back) = back := by
  induction front with
  | nil => simp [behindNth, last]
  | cons first front ih =>
    rw [List.countP_cons, List.cons_append]
    by_cases yes : p first = true
    · rw [if_pos yes, behindNth, if_pos yes, ih]
    · rw [if_neg yes, Nat.add_zero]
      cases count : front.countP p with
      | zero => rw [behindNth, if_neg yes, ← count, ih]
      | succ n => rw [behindNth, if_neg yes, ← count, ih]

/-- The rows that are skipped when each page looks at `budget` rows and then ends in front of
one more, unless more than `count` of them are wanted: then it ends behind the last of these.
The `k`-th page wants the rows of `wants k`. -/
def skipped (count budget : Nat) (wants : Nat → α → Bool) (k : Nat) (rows : List α) : List α :=
  if many : count < (rows.take budget).countP (wants k) then
    skipped count budget wants (k + 1) (behindNth (wants k) count rows)
  else
    match here : rows.drop budget with
    | [] => []
    | row :: back => row :: skipped count budget wants (k + 1) back
termination_by rows.length
decreasing_by
  · exact length_behindNth_lt (many.trans_le (List.take_sublist _ _).countP_le)
  · have := congrArg List.length here
    rw [List.length_drop, List.length_cons] at this
    omega

variable {count budget : Nat} {wants : Nat → α → Bool} {k : Nat}

theorem skipped_complete {rows : List α} (few : rows.countP (wants k) ≤ count)
    (short : rows.length ≤ budget) : skipped count budget wants k rows = [] := by
  rw [skipped, dif_neg (by rw [List.take_of_length_le short]; omega)]
  split
  · rfl
  · rename_i here
    rw [List.drop_of_length_le short] at here
    cases here

theorem skipped_full {front back : List α} {row : α} (last : wants k row = true)
    (many : front.countP (wants k) = count) (short : front.length < budget) :
    skipped count budget wants k (front ++ row :: back) =
      skipped count budget wants (k + 1) back := by
  have window : front ++ [row] <+: (front ++ row :: back).take budget := by
    refine List.prefix_take_iff.mpr ⟨⟨back, by simp⟩, ?_⟩
    rw [List.length_append, List.length_singleton]
    omega
  have more := window.sublist.countP_le (p := wants k)
  rw [List.countP_append, List.countP_singleton, if_pos last, many] at more
  rw [skipped, dif_pos (by omega), ← many, behindNth_split last]

theorem skipped_exhausted {front back : List α} {row : α}
    (few : front.countP (wants k) ≤ count) (used : front.length = budget) :
    skipped count budget wants k (front ++ row :: back) =
      row :: skipped count budget wants (k + 1) back := by
  rw [skipped, List.take_left' used, dif_neg (by omega)]
  split
  · rename_i here
    rw [List.drop_left' used] at here
    cases here
  · rename_i here
    rw [List.drop_left' used] at here
    cases here
    rfl

/-- A budget that all rows fit in never runs out. -/
theorem skipped_of_short {rows : List α} (short : rows.length ≤ budget) :
    skipped count budget wants k rows = [] := by
  induction size : rows.length using Nat.strong_induction_on generalizing k rows with
  | _ n ih =>
    by_cases many : count < rows.countP (wants k)
    · have shorter := length_behindNth_lt many
      rw [skipped, dif_pos (by rwa [List.take_of_length_le short])]
      exact ih _ (size ▸ shorter) (shorter.le.trans short) rfl
    · exact skipped_complete (by omega) short

end Skipped

/-! ### Cursors and rows -/

/-- Behind a key of the rows still to look at come the rows behind it. -/
theorem behind_split {after : Option Bytes} {rows front back : List (Bytes × Entry)}
    {row : Bytes × Entry} (sorted : rows.Pairwise fun a b => a.1 < b.1)
    (split : behind after rows = front ++ row :: back) : behind (some row.1) rows = back := by
  have ascending : (front ++ row :: back).Pairwise fun a b => a.1 < b.1 :=
    split ▸ sorted.sublist List.filter_sublist
  have unseen : row ∈ behind after rows := by simp [split]
  have twice : behind (some row.1) rows = behind (some row.1) (behind after rows) := by
    rw [behind, behind, behind, List.filter_filter]
    refine List.filter_congr fun other _ => ?_
    -- Whatever comes behind the row is not before the old cursor either.
    cases after with
    | none => simp
    | some from_ =>
      have later := (List.mem_filter.mp unseen).2
      simp only [Option.any_some, Bool.not_eq_true', decide_eq_false_iff_not, not_le] at later
      simp only [Option.any_some, ← decide_not, not_le]
      by_cases past : row.1 < other.1
      · simp [past, later.trans past]
      · simp [past]
  rw [twice, split, behind, List.filter_append, List.filter_cons_of_neg (by simp)]
  have before : front.filter (fun other => !(some row.1).any (other.1 ≤ ·)) = [] := by
    rw [List.filter_eq_nil_iff]
    intro other mem
    simp [((List.pairwise_append.mp ascending).2.2 other mem row List.mem_cons_self).le]
  have past : back.filter (fun other => !(some row.1).any (other.1 ≤ ·)) = back := by
    rw [List.filter_eq_self]
    intro other mem
    have := (List.pairwise_cons.mp (List.pairwise_append.mp ascending).2.1).1 other mem
    simp [this]
  rw [before, past, List.nil_append]

end PageLemmas

/-! ### A walk -/

section Walk

variable (inner : Inner) (request : ListRequest) (maxScan : Nat) (clock : Nat → Nat)

/-- The pages from a cursor on, the first of them the `k`-th of the walk, as long as there
is fuel. Each page is judged at the reading of its own. -/
def walkFrom : Nat → Nat → Bytes → Option (List Listing)
  | 0, _, _ => none
  | fuel + 1, k, cursor =>
    match listKeys inner (clock k) { request with cursor } maxScan with
    | .error _ => none
    | .ok listing =>
      match listing.cursor with
      | none => some [listing]
      | some next => (walkFrom fuel (k + 1) next).map (listing :: ·)

/-- A walk from the empty cursor until no cursor is returned. -/
def walk (fuel : Nat) : Option (List Listing) := walkFrom inner request maxScan clock fuel 0 []

end Walk

/-- The keys of some pages. -/
def names (pages : List Listing) : List Bytes :=
  pages.flatMap fun page => page.entries.map ListEntry.name

section WalkLemmas

variable {inner : Inner} {request : ListRequest} {maxScan : Nat} {clock : Nat → Nat}

/-- What the pages over `rows` list: some of their keys, in order, and of those that are wanted
throughout all but those of `left`. -/
structure Walked (inner : Inner) (request : ListRequest) (clock : Nat → Nat)
    (rows left : List (Bytes × Entry)) (pages : List Listing) : Prop where
  sub : (names pages).Sublist (rows.map Prod.fst)
  known : ∀ row ∈ left, row ∈ rows
  exact : ∀ row ∈ rows, (∀ k, wanted inner (clock k) request row = true) →
    (row.1 ∈ names pages ↔ row ∉ left)

theorem names_listed (now : Nat) (rows : List (Bytes × Entry)) :
    (listed inner now request rows).map ListEntry.name =
      (rows.filter (wanted inner now request)).map Prod.fst := by
  rw [listed, List.map_map]
  rfl

theorem mem_names_listed {now : Nat} {rows : List (Bytes × Entry)} {row : Bytes × Entry}
    (mem : row ∈ rows) (isWanted : wanted inner now request row = true) :
    row.1 ∈ (listed inner now request rows).map ListEntry.name := by
  rw [names_listed]
  exact List.mem_map_of_mem (List.mem_filter.mpr ⟨mem, isWanted⟩)

theorem names_listed_sublist (now : Nat) (rows : List (Bytes × Entry)) :
    ((listed inner now request rows).map ListEntry.name).Sublist (rows.map Prod.fst) := by
  rw [names_listed]
  exact List.filter_sublist.map _

/-- The last page. -/
theorem Walked.last {rows : List (Bytes × Entry)} {listing : Listing} (k : Nat)
    (entries : listing.entries = listed inner (clock k) request rows) :
    Walked inner request clock rows [] [listing] := by
  have all : names [listing] = (listed inner (clock k) request rows).map ListEntry.name := by
    simp [names, entries]
  refine ⟨?_, by simp, fun row mem isWanted => ?_⟩
  · rw [all]
    exact names_listed_sublist _ _
  · rw [all]
    exact iff_of_true (mem_names_listed mem (isWanted k)) List.not_mem_nil

/-- A page in front of others: it looked at `front`, and not at the rows of `passed`, which
is empty unless its budget ran out. -/
theorem Walked.cons {front passed back left : List (Bytes × Entry)} {listing : Listing}
    {pages : List Listing} (k : Nat)
    (once : ((front ++ passed ++ back).map Prod.fst).Nodup)
    (entries : listing.entries = listed inner (clock k) request front)
    (later : Walked inner request clock back left pages) :
    Walked inner request clock (front ++ passed ++ back) (passed ++ left) (listing :: pages) := by
  have all : names (listing :: pages) =
      (listed inner (clock k) request front).map ListEntry.name ++ names pages := by
    simp [names, entries]
  rw [List.map_append, List.map_append, List.nodup_append, List.nodup_append] at once
  obtain ⟨⟨-, -, apart⟩, -, apart'⟩ := once
  have key : ∀ {row : Bytes × Entry} {rows : List (Bytes × Entry)},
      row ∈ rows → row.1 ∈ rows.map Prod.fst := List.mem_map_of_mem
  refine ⟨?_, ?_, ?_⟩
  · rw [all, List.append_assoc, List.map_append, List.map_append]
    exact (names_listed_sublist _ _).append (later.sub.trans (List.sublist_append_right _ _))
  · intro row mem
    rcases List.mem_append.mp mem with here | there
    · exact List.mem_append_left _ (List.mem_append_right _ here)
    · exact List.mem_append_right _ (later.known row there)
  · intro row mem isWanted
    have fromFront : row.1 ∈ (listed inner (clock k) request front).map ListEntry.name →
        row.1 ∈ front.map Prod.fst := fun listed' => (names_listed_sublist _ _).subset listed'
    have fromBack : row.1 ∈ names pages → row.1 ∈ back.map Prod.fst := fun listed' =>
      later.sub.subset listed'
    rw [all, List.mem_append, List.mem_append]
    rcases List.mem_append.mp mem with inFront | inBack
    · rcases List.mem_append.mp inFront with seen | spared
      · -- Looked at, and nothing later can name it.
        refine iff_of_true (.inl (mem_names_listed seen (isWanted k))) ?_
        rintro (skip | there)
        · exact apart _ (key seen) _ (key skip) rfl
        · exact apart' _ (List.mem_append_left _ (key seen)) _ (key (later.known _ there)) rfl
      · refine iff_of_false ?_ fun none => none (.inl spared)
        rintro (here | there)
        · exact apart _ (fromFront here) _ (key spared) rfl
        · exact apart' _ (List.mem_append_right _ (key spared)) _ (fromBack there) rfl
    · have elsewhere : row.1 ∉ (listed inner (clock k) request front).map ListEntry.name :=
        fun here => apart' _ (List.mem_append_left _ (fromFront here)) _ (key inBack) rfl
      have unskipped : row ∉ passed :=
        fun here => apart' _ (List.mem_append_right _ (key here)) _ (key inBack) rfl
      simp only [elsewhere, unskipped, false_or]
      exact later.exact row inBack isWanted

/-- One page, from a cursor that is read as `after`. -/
theorem listKeys_page (now : Nat) (request : ListRequest) (maxScan : Nat) {cursor : Bytes}
    {after : Option Bytes} (read : Listing.decode cursor 1 = .ok (0, after)) :
    ∃ listing, listKeys inner now { request with cursor } maxScan = .ok listing ∧
      Page inner now { request with cursor } maxScan (behind after inner.entries.rows) {}
        listing := by
  refine ⟨listFrom inner now { request with cursor } maxScan after inner.entries.rows {}, ?_,
    listFrom_page _ _ _ (by simp) (Nat.zero_le _)⟩
  rw [listKeys, read]
  rfl

theorem length_listed (now : Nat) (rows : List (Bytes × Entry)) :
    (listed inner now request rows).length = rows.countP (wanted inner now request) := by
  rw [listed, List.length_map, List.countP_eq_length_filter]

/-- What a walk skips of the rows its `k`-th page begins at. -/
abbrev skippedBy (inner : Inner) (request : ListRequest) (maxScan : Nat) (clock : Nat → Nat) :
    Nat → List (Bytes × Entry) → List (Bytes × Entry) :=
  skipped (request.limit - 1) maxScan fun k => wanted inner (clock k) request

/-- A walk over the rows behind a cursor ends, and has walked them. -/
theorem walkFrom_ends (isKey : ∀ row ∈ inner.entries.rows, IsKey row.1) (request : ListRequest)
    (maxScan : Nat) (clock : Nat → Nat) (k : Nat) {cursor : Bytes} {after : Option Bytes}
    (read : Listing.decode cursor 1 = .ok (0, after)) :
    ∃ fuel pages, walkFrom inner request maxScan clock fuel k cursor = some pages ∧
      Walked inner request clock (behind after inner.entries.rows)
        (skippedBy inner request maxScan clock k (behind after inner.entries.rows)) pages := by
  induction size : (behind after inner.entries.rows).length using Nat.strong_induction_on
    generalizing k cursor after with
  | _ n ih =>
    obtain ⟨listing, answer, page⟩ := listKeys_page (clock k) request maxScan read
    have once : ((behind after inner.entries.rows).map Prod.fst).Nodup :=
      inner.entries.keys_nodup.sublist (List.filter_sublist.map _)
    have counted : ∀ rows, listing.entries = listed inner (clock k) request rows →
        listing.entries.length = rows.countP (wanted inner (clock k) request) := by
      intro rows entries
      rw [entries, length_listed]
    -- The next page resumes behind the row that its cursor names.
    have resume : ∀ front row back, behind after inner.entries.rows = front ++ row :: back →
        listing.cursor = some (Listing.encode 0 row.1) → ∃ fuel pages,
          walkFrom inner request maxScan clock fuel k cursor = some (listing :: pages) ∧
            Walked inner request clock back
              (skippedBy inner request maxScan clock (k + 1) back) pages := by
      intro front row back split next
      have mem : row ∈ inner.entries.rows :=
        (List.mem_filter.mp (split ▸ List.mem_append_right _ List.mem_cons_self :
          row ∈ behind after inner.entries.rows)).1
      have rest := behind_split inner.entries.sorted split
      have shorter : (behind (some row.1) inner.entries.rows).length < n := by
        rw [rest, ← size, split]
        simp
        omega
      have cursorRead : Listing.decode (Listing.encode 0 row.1) 1 = .ok (0, some row.1) :=
        Listing.decode_encode (isKey row mem) (by decide)
      obtain ⟨fuel, pages, later, walked⟩ := ih _ shorter (k + 1) cursorRead rfl
      refine ⟨fuel + 1, pages, ?_, rest ▸ walked⟩
      rw [walkFrom, answer]
      simp only [next, later]
      rfl
    cases page with
    | complete entries ended open_ scanned =>
      have few := counted _ entries
      dsimp only at open_
      have none : skippedBy inner request maxScan clock k (behind after inner.entries.rows) = [] :=
        skipped_complete (by omega) (by simpa using scanned)
      refine ⟨1, [listing], ?_, none ▸ .last k entries⟩
      rw [walkFrom, answer]
      simp only [ended]
    | full front row back split last entries next closed scanned =>
      obtain ⟨fuel, pages, walked, later⟩ := resume front row back split next
      refine ⟨fuel, listing :: pages, walked, ?_⟩
      have many := counted _ entries
      change wanted inner (clock k) request row = true at last
      dsimp only at closed
      rw [List.countP_append, List.countP_singleton, if_pos last] at many
      have same : skippedBy inner request maxScan clock k (front ++ row :: back) =
          skippedBy inner request maxScan clock (k + 1) back :=
        skipped_full last (by omega) (by simpa using scanned)
      have whole : front ++ row :: back = front ++ [row] ++ [] ++ back := by simp
      rw [split] at once ⊢
      rw [same]
      rw [whole] at once ⊢
      exact .cons k once entries later
    | exhausted front row back split entries next open_ scanned =>
      obtain ⟨fuel, pages, walked, later⟩ := resume front row back split next
      refine ⟨fuel, listing :: pages, walked, ?_⟩
      have few := counted _ entries
      dsimp only at open_
      have same : skippedBy inner request maxScan clock k (front ++ row :: back) =
          [row] ++ skippedBy inner request maxScan clock (k + 1) back :=
        skipped_exhausted (by omega) (by simpa using scanned)
      have whole : front ++ row :: back = front ++ [row] ++ back := by simp
      rw [split] at once ⊢
      rw [same]
      rw [whole] at once ⊢
      exact .cons k once entries later

end WalkLemmas

/-- A key that is live at every page of a walk and matches its pattern. -/
def Contents.Wanted (contents : Contents) (request : ListRequest) (clock : Nat → Nat)
    (key : Bytes) : Prop :=
  ∃ entry, contents.entries.get key = some entry ∧
    (∀ k, contents.alive entry (clock k) = true) ∧ request.matches key = true

/-- Without writes, following the cursors ends; it lists no key twice, and every wanted key
once exactly when no wanted key is skipped: when no page that looks at `maxScan` records and
finds fewer than the limit of them wanted has a wanted one behind these. In a store of no more
than `maxScan` keys nothing is skipped. -/
theorem walk_complete_iff (contents : Contents) (request : ListRequest) (maxScan : Nat)
    (clock : Nat → Nat) :
    ∃ fuel pages, walk contents.toInner request maxScan clock fuel = some pages ∧
      (names pages).Nodup ∧
      ((∀ key, contents.Wanted request clock key → (names pages).count key = 1) ↔
        ∀ row ∈ skipped (request.limit - 1) maxScan
          (fun k => wanted contents.toInner (clock k) request) 0 contents.entries.rows,
          ¬ contents.Wanted request clock row.1) ∧
      (contents.entries.rows.length ≤ maxScan →
        ∀ key, contents.Wanted request clock key → (names pages).count key = 1) := by
  obtain ⟨fuel, pages, walked, exact⟩ :=
    walkFrom_ends contents.isKey request maxScan clock 0
      (show Listing.decode [] 1 = .ok (0, none) from rfl)
  have all : behind none contents.entries.rows = contents.entries.rows := by
    simp [behind]
  rw [all] at exact
  have once : (names pages).Nodup := contents.entries.keys_nodup.sublist exact.sub
  have listed' : ∀ row ∈ contents.entries.rows, contents.Wanted request clock row.1 →
      (row.1 ∈ names pages ↔ row ∉ skippedBy contents.toInner request maxScan clock 0
        contents.entries.rows) := by
    rintro row mem ⟨entry, stored, alive, matched⟩
    obtain rfl : row.2 = entry :=
      Option.some.inj ((Table.get_eq_some_iff.mpr mem).symm.trans stored)
    refine exact.exact row mem fun k => ?_
    rw [wanted, alive k, matched]
    rfl
  have clear : (∀ row ∈ skippedBy contents.toInner request maxScan clock 0 contents.entries.rows,
      ¬ contents.Wanted request clock row.1) →
      ∀ key, contents.Wanted request clock key → (names pages).count key = 1 := by
    intro none key isWanted
    have ⟨entry, stored, _⟩ := isWanted
    have mem := Table.get_eq_some_iff.mp stored
    exact List.count_eq_one_of_mem once
      ((listed' (key, entry) mem isWanted).mpr fun skip => none _ skip isWanted)
  refine ⟨fuel, pages, walked, once, ⟨fun counted row skip isWanted => ?_, clear⟩, fun few => ?_⟩
  · have mem := (listed' row (exact.known row skip) isWanted).mp
      (List.count_pos_iff.mp (by rw [counted row.1 isWanted]; omega))
    exact mem skip
  · exact clear (by rw [skippedBy, skipped_of_short few]; simp)

/-- A store with the keys `a` and `b`. -/
def twoKeys : Contents where
  entries := ⟨[([97], ⟨[], 0, 1, never, 0, []⟩), ([98], ⟨[], 0, 2, never, 0, []⟩)], by decide⟩
  tags := ∅
  nextTagId := 0
  epoch := 0
  nextCas := 2
  isKey := by decide

/-- With a budget of one key a page, the key `b` is live, matches, and is not listed. -/
theorem walk_skips_a_key :
    twoKeys.Wanted ⟨10, [], []⟩ (fun _ => 0) [98] ∧
      (walk twoKeys.toInner ⟨10, [], []⟩ 1 (fun _ => 0) 2).map names = some [[97]] :=
  ⟨⟨⟨[], 0, 2, never, 0, []⟩, by decide, fun _ => rfl, rfl⟩, by decide +kernel⟩

end Vash.Memory
