import Strongbox.Proofs.Store.Independence
import Strongbox.Proofs.Store.Window

/-!
# The sequence of identifiers

Of every thousand numbers of a counter the last one is left out, since a batch is spent before
its last number is handed out.  So the number that an increment takes can be told from where the
counter stood at first and how many increments came before, whatever happens between them to
other paths.  Numbers with more than fifteen digits have no identifier, and a counter that has
come so far, or to the end of its word, stays exhausted.  The main statement is
`Counter.answers_eq_sequence`.
-/

set_option autoImplicit false

namespace Strongbox

namespace Counter

/-! ## Numbers and their identifiers -/

/-- The number of the increment that comes after `j` others, where the first batch starts at
`start`. -/
def number (start j : Nat) : Nat := start + 1000 * (j / 999) + j % 999 + 1

/-- A text of fifteen digits that is the decimal of a number. -/
structure IsForm (n : Nat) (text : String) : Prop where
  length : text.length = 15
  digits : ∀ c ∈ text.toList, Time.isDigit c = true
  value : Time.digitsBehind 0 text.toList = n

/-- The answer of the increment of the counter at a path that takes the number `n`. -/
def Shows (path : String) (n : Nat) (answer : Except StoreError String) : Prop :=
  if n ≤ 999999999999999 then ∃ text, answer = .ok text ∧ IsForm n text
  else answer = .error (.incrementExhausted path)

/-- A text that is formatted has the form of its number. -/
theorem isForm_of_formatId {n : Nat} {text : String} (h : formatId n = some text) :
    IsForm n text := by
  obtain ⟨hn, rfl⟩ := formatId_eq_some_iff.1 h
  refine ⟨?_, ?_, ?_⟩
  · rw [← String.length_toList, String.toList_ofList, length_padded_width hn]
    rfl
  · rw [String.toList_ofList]
    exact fun c => Time.isDigit_of_mem_padded
  · rw [String.toList_ofList]
    exact Time.digitsValue_padded width n

/-- A number is formatted exactly up to the greatest of fifteen digits. -/
theorem isSome_formatId_iff (n : Nat) : (formatId n).isSome = true ↔ n ≤ 999999999999999 := by
  constructor
  · intro hsome
    obtain ⟨text, htext⟩ := Option.isSome_iff_exists.1 hsome
    exact (formatId_eq_some_iff.1 htext).1
  · intro hn
    rw [formatId_eq_some_iff.2 ⟨hn, rfl⟩]
    rfl

/-- Identifiers are ordered as the numbers are, also octet by octet. -/
theorem encode_formatId_lt_iff {m n : Nat} {s t : String} (hs : formatId m = some s)
    (ht : formatId n = some t) : Utf8.encode s < Utf8.encode t ↔ m < n := by
  rw [Utf8.encode_lt_encode]
  constructor
  · intro hlt
    rcases Nat.lt_trichotomy m n with hless | rfl | hmore
    · exact hless
    · rw [hs] at ht
      injection ht with ht
      exact absurd (ht ▸ hlt) Std.lt_irrefl
    · exact absurd (Std.lt_trans hlt (formatId_lt ht hs hmore)) Std.lt_irrefl
  · exact formatId_lt hs ht

/-- Exactly the numbers of up to fifteen digits have identifiers; those are fifteen digits that
denote the number, and their order octet by octet is that of the numbers. -/
theorem formatId_order (a b : Nat) :
    ((formatId a).isSome = true ↔ a ≤ 999999999999999) ∧
    (∀ text, formatId a = some text → IsForm a text) ∧
    (∀ s t, formatId a = some s → formatId b = some t →
      (Utf8.encode s < Utf8.encode t ↔ a < b)) :=
  ⟨isSome_formatId_iff a, fun _ => isForm_of_formatId, fun _ _ => encode_formatId_lt_iff⟩

/-- Nine comes before ten, with as many digits. -/
theorem formatId_order_nine_ten :
    formatId 9 = some "000000000000009" ∧ formatId 10 = some "000000000000010" ∧
    IsForm 9 "000000000000009" ∧
    (Utf8.encode "000000000000009" < Utf8.encode "000000000000010" ↔ 9 < 10) := by
  have hnine : formatId 9 = some "000000000000009" := by decide
  have hten : formatId 10 = some "000000000000010" := by decide
  obtain ⟨-, hform, horder⟩ := formatId_order 9 10
  exact ⟨hnine, hten, hform _ hnine, horder _ _ hnine hten⟩

/-- What is issued shows its number. -/
theorem shows_issue (path : String) (n : Nat) : Shows path n (Store.issue path n) := by
  unfold Shows Store.issue
  split_ifs with hn
  · have hsome : formatId n = some (String.ofList (Time.padded width n)) :=
      formatId_eq_some_iff.2 ⟨hn, rfl⟩
    rw [hsome]
    exact ⟨_, rfl, isForm_of_formatId hsome⟩
  · rw [formatId_eq_none (Nat.lt_of_not_le hn)]

/-- Beyond the greatest number, exhaustion is shown. -/
theorem shows_exhausted {path : String} {n : Nat} (h : 999999999999999 < n) :
    Shows path n (.error (.incrementExhausted path)) := by
  unfold Shows
  rw [if_neg (Nat.not_le_of_gt h)]

/-- Who has shown that a counter is exhausted shows it for every greater number. -/
theorem Shows.exhausted {path : String} {m n : Nat} {answer : Except StoreError String}
    (hm : Shows path m (.error (.incrementExhausted path))) (hmn : m ≤ n)
    (hn : Shows path n answer) : answer = .error (.incrementExhausted path) := by
  unfold Shows at hm hn
  split_ifs at hm hn with hle hle'
  · obtain ⟨text, htext, -⟩ := hm
    simp at htext
  · obtain ⟨text, htext, -⟩ := hm
    simp at htext
  · omega
  · exact hn

/-- The numbers of a counter grow with their index. -/
theorem number_le {start i j : Nat} (h : i ≤ j) : number start i ≤ number start j := by
  unfold number
  omega

/-! ## Taking numbers -/

/-- What an increment does to the cursor of a counter and to the stored start of its next batch,
and what it answers. -/
inductive Takes (path : String) (cursor : Option Cursor) (start : Nat) :
    Except StoreError String → Option Cursor → Nat → Prop
  | next {c : Cursor} (hc : cursor = some c) (hlive : c.current < c.ceiling) :
    Takes path cursor start (Store.issue path (c.current + 1))
      (some ⟨c.current + 1, c.ceiling⟩) start
  | fresh (hspent : ∀ c ∈ cursor, c.isSpent = true) (hroom : start + 1000 < Cursor.wordLimit) :
    Takes path cursor start (Store.issue path (start + 1))
      (some ⟨start + 1, start + 999⟩) (start + 1000)
  | refused (hspent : ∀ c ∈ cursor, c.isSpent = true) (hfull : Cursor.wordLimit ≤ start + 1000) :
    Takes path cursor start (.error (.incrementExhausted path)) cursor start

/-- Where a counter stands after `j` increments, if its first batch starts at `first`. -/
inductive Stage (first j : Nat) (cursor : Option Cursor) (start : Nat) : Prop
  /-- In the middle of a batch. -/
  | drawing {c : Cursor} (hc : cursor = some c) (hcurrent : c.current + 1 = number first j)
    (hceiling : c.ceiling = first + 1000 * (j / 999) + 999) (hj : 0 < j % 999)
    (hstart : start = first + 1000 * (j / 999) + 1000)
  /-- Between two batches. -/
  | due (hspent : ∀ c ∈ cursor, c.isSpent = true) (hj : j % 999 = 0)
    (hstart : start = first + 1000 * (j / 999))
  /-- At the end of the word. -/
  | ended (hspent : ∀ c ∈ cursor, c.isSpent = true) (hfull : Cursor.wordLimit ≤ start + 1000)
    (hstart : start ≤ first + 1000 * (j / 999))

/-- A number of a counter at the end of its word has too many digits. -/
theorem lt_number_of_full {first j start : Nat} (hfull : Cursor.wordLimit ≤ start + 1000)
    (hstart : start ≤ first + 1000 * (j / 999)) : 999999999999999 < number first j := by
  unfold Cursor.wordLimit at hfull
  unfold number
  omega

/-- An increment answers with the number of its place and leads to the next place. -/
theorem Stage.takes {path : String} {first j start start' : Nat} {cursor cursor' : Option Cursor}
    {answer : Except StoreError String} (h : Stage first j cursor start)
    (htakes : Takes path cursor start answer cursor' start') :
    Shows path (number first j) answer ∧ Stage first (j + 1) cursor' start' := by
  cases h with
  | @drawing c hc hcurrent hceiling hj hstart =>
    have hlive : c.current < c.ceiling := by
      unfold number at hcurrent
      omega
    have hnot : ¬ ∀ d ∈ cursor, d.isSpent = true := fun hspent =>
      Cursor.not_lt_of_isSpent (hspent c hc) hlive
    cases htakes with
    | @next d hd _ =>
      obtain rfl : c = d := Option.some.inj (hc.symm.trans hd)
      rw [hcurrent]
      refine ⟨shows_issue path _, ?_⟩
      by_cases hlast : j % 999 = 998
      · -- The last number of the batch but the one that is left out.
        refine .due ?_ (by omega) (by omega)
        intro d hd
        obtain rfl := Option.some.inj hd
        unfold number at hcurrent ⊢
        simp [Cursor.isSpent]
        omega
      · refine .drawing rfl ?_ (by dsimp only; omega) (by omega) (by omega)
        unfold number
        dsimp only
        omega
    | fresh hspent _ => exact absurd hspent hnot
    | refused hspent _ => exact absurd hspent hnot
  | due hspent hj hstart =>
    -- The next batch begins just where the numbers of the last one ended.
    cases htakes with
    | next hc hlive => exact absurd hlive (Cursor.not_lt_of_isSpent (hspent _ hc))
    | fresh _ hroom =>
      have hnumber : number first j = start + 1 := by
        unfold number
        omega
      rw [hnumber]
      refine ⟨shows_issue path _, .drawing rfl ?_ (by dsimp only; omega) (by omega) (by omega)⟩
      unfold number
      dsimp only
      omega
    | refused _ hfull =>
      exact ⟨shows_exhausted (lt_number_of_full hfull (Nat.le_of_eq hstart)),
        .ended hspent hfull (by omega)⟩
  | ended hspent hfull hstart =>
    -- No batch fits behind the stored start, which stays where it is.
    cases htakes with
    | next hc hlive => exact absurd hlive (Cursor.not_lt_of_isSpent (hspent _ hc))
    | fresh _ hroom => omega
    | refused _ _ =>
      exact ⟨shows_exhausted (lt_number_of_full hfull hstart), .ended hspent hfull (by omega)⟩

end Counter

/-! ## Increments of a counter -/

/-- A sound scene in which the counter at a path has the given cursor and the given stored start of
its next batch. -/
structure Scene.Counts (a : Aead) (path : String) (cursor : Option Cursor) (start : Nat)
    (s : Scene) : Prop where
  isSound : s.IsSound a
  cursor : s.cursor? path = some cursor
  start : s.ambient.engine.counterStart? a path = some start

namespace Scene.Counts

variable {a : Aead} {path : String} {cursor : Option Cursor} {start : Nat} {s t : Scene}

/-- What only reads leaves a counter where it stands. -/
theorem of_keeps (h : s.Counts a path cursor start) (ht : t.IsSound a) (hkeeps : s.Keeps t) :
    t.Counts a path cursor start := by
  refine ⟨ht, ?_, ?_⟩
  · rw [← h.cursor]
    unfold Scene.cursor?
    rw [hkeeps.store]
  · rw [← h.start]
    exact Engine.counterStart?_congr (hkeeps.value?_eq path)

/-- The session of a counter's scene has its cipher and its cursor. -/
theorem exists_session (h : s.Counts a path cursor start) :
    ∃ session, s.store.session = some session ∧ session.cipher = a ∧
      session.cursors.find? path = cursor := by
  obtain ⟨session, hsession, hcursor⟩ := Option.map_eq_some_iff.1 h.cursor
  exact ⟨session, hsession, h.isSound.cipher session hsession, hcursor⟩

end Scene.Counts

namespace Store

open StoreCall

variable {a : Aead} {path : String} {cursor : Option Cursor} {start : Nat} {s : Scene}

/-- The stored start is read. -/
theorem exists_read (hs : s.Counts a path cursor start) :
    ∃ x, readRecord a path s = .ok x s ∧ batchStart path x s = .ok start s ∧
      ∀ r, x = some r → r.createdAt.IsValid := by
  obtain ⟨x, hx, hstart⟩ := Engine.counterStart?_eq_some_iff.1 hs.start
  refine ⟨x, readRecord_of_isHealthy hs.isSound.engine hx, ?_, ?_⟩
  · cases x with
    | none =>
      injection hstart with hstart
      rw [← hstart]
      rfl
    | some r =>
      have hstored : Counter.stored? r.fields = some start := hstart
      unfold batchStart
      dsimp only
      rw [hstored]
      rfl
  · rintro r rfl
    exact (Engine.isProper_of_record? hx).isValid

/-- The clock shows a valid instant, and reading it leaves the engine. -/
theorem exists_now (hs : s.IsSound a) :
    ∃ time t, now s = .ok time t ∧ time.IsValid ∧ t.ambient.engine.IsHealthy :=
  ⟨_, _, rfl, hs.clock _, hs.engine⟩

/-- A reservation succeeds where the numbers of its batch fit a word. -/
theorem exists_reserve (ha : a.Lawful) (hfits : Counter.Fits path)
    (hs : s.Counts a path cursor start) (hroom : start + 1000 < Cursor.wordLimit) :
    ∃ c t, reserve a path s = .ok c t := by
  obtain ⟨x, hread, hbatch, hvalid⟩ := exists_read hs
  obtain ⟨time, u, hnow, htime, hu⟩ := exists_now hs.isSound
  unfold reserve
  rw [Call.bind_ok hread, Call.bind_ok hbatch, Cursor.reserve_of_lt hroom]
  dsimp only
  rw [Call.bind_ok hnow]
  rcases writeRecord_of_isHealthy ha hu ⟨path, Counter.fieldsFor (start + 1000), _, time⟩ with
    ⟨-, c, -, hwrite⟩ | ⟨hlong, -⟩
  · rw [Call.bind_ok hwrite]
    exact ⟨_, _, rfl⟩
  · refine absurd (hfits _ hroom _ time ?_ htime) hlong
    cases x with
    | none => exact htime
    | some r => exact hvalid r rfl

/-- A batch that fits the word is reserved from the stored start on. -/
theorem reserve_of_room (ha : a.Lawful) (hfits : Counter.Fits path)
    (hs : s.Counts a path cursor start) (hroom : start + 1000 < Cursor.wordLimit) :
    ∃ t, Reserves a path start s t ∧ reserve a path s = .ok ⟨start, start + 999⟩ t := by
  rcases reserve_cases ha path s with ⟨e, t, -, herror⟩ | ⟨start', t, hreserves, hrun⟩
  · obtain ⟨c, t', hok⟩ := exists_reserve ha hfits hs hroom
    rw [herror] at hok
    simp at hok
  · obtain rfl : start' = start := Option.some.inj (hreserves.stored.symm.trans hs.start)
    exact ⟨t, hreserves, hrun⟩

/-- Behind the last batch that fits the word none is reserved. -/
theorem reserve_of_full (hs : s.Counts a path cursor start)
    (hfull : Cursor.wordLimit ≤ start + 1000) :
    reserve a path s = .error (.incrementExhausted path) s := by
  obtain ⟨x, hread, hbatch, -⟩ := exists_read hs
  unfold reserve
  rw [Call.bind_ok hread, Call.bind_ok hbatch, Cursor.reserve_of_le hfull]
  rfl

/-- After a batch was reserved the start of the next one is read. -/
theorem counterStart?_of_reserves {t : Scene} (hs : s.IsSound a) (h : Reserves a path start s t) :
    t.ambient.engine.counterStart? a path = some (start + 1000) := by
  obtain ⟨c, createdAt, updatedAt, hvalue, hdecrypt, ⟨i, hi⟩, hcreated⟩ := h.written
  obtain ⟨x, hx, -⟩ := Engine.counterStart?_eq_some_iff.1 h.stored
  have hupdated : updatedAt.IsValid := hi ▸ hs.clock i
  have hvalid : createdAt.IsValid := by
    rw [hcreated x hx]
    cases x with
    | none => exact hupdated
    | some r => exact (Engine.isProper_of_record? hx).isValid
  exact Engine.counterStart?_of_counter hvalue hdecrypt h.isWord hvalid hupdated

/-- A spent cursor is replaced by a reservation. -/
theorem cursorFor_of_spent {session : Session}
    (hspent : ∀ c ∈ session.cursors.find? path, c.isSpent = true) :
    cursorFor session path = reserve session.cipher path := by
  unfold cursorFor
  cases hc : session.cursors.find? path with
  | none => rfl
  | some c =>
    dsimp only
    rw [if_pos (hspent c hc)]

/-- A live cursor is used as it stands. -/
theorem cursorFor_of_live {session : Session} {c : Cursor}
    (hfind : session.cursors.find? path = some c) (hlive : c.isSpent = false) (s : Scene) :
    cursorFor session path s = .ok c s := by
  unfold cursorFor
  rw [hfind]
  dsimp only
  rw [hlive, if_neg Bool.false_ne_true]
  rfl

/-- From a cursor at hand that is not spent an increment draws the next number. -/
theorem counts_of_draw {session : Session} {ctx : Context} {raw : String} {c : Cursor} {u t : Scene}
    (hrun : increment ctx raw s = (cursorFor session path >>= draw path) u)
    (hok : cursorFor session path u = .ok c t) (hopen : t.store.session = some session)
    (hstart : t.ambient.engine.counterStart? a path = some start) (hlive : c.current < c.ceiling)
    (hsound : (Call.after (increment ctx raw s)).IsSound a) :
    Call.answer (increment ctx raw s) = issue path (c.current + 1) ∧
      (Call.after (increment ctx raw s)).Counts a path (some ⟨c.current + 1, c.ceiling⟩) start := by
  obtain ⟨hafter, hanswer⟩ := draw_of_lt path hopen hlive
  rw [hrun, Call.bind_ok hok] at hsound ⊢
  refine ⟨hanswer, hsound, ?_, ?_⟩
  · rw [hafter]
    exact congrArg some (Table.find?_insert_self path _ session.cursors)
  · rw [hafter]
    exact hstart

/-- An increment takes the next number of the counter. -/
theorem takes_increment (ha : a.Lawful) (hpath : Path.IsLocation path) (hfits : Counter.Fits path)
    (hs : s.Counts a path cursor start) {ctx : Context}
    (hctx : ctx.verdict s.ambient.boundaries = none) {raw : String}
    (hraw : Path.normalize raw = path) :
    ∃ cursor' start',
      Counter.Takes path cursor start (Call.answer (increment ctx raw s)) cursor' start' ∧
        (Call.after (increment ctx raw s)).Counts a path cursor' start' := by
  obtain ⟨session, hsession, hcipher, hfind⟩ := hs.exists_session
  have hroot := hpath.isRoot_eq_false hraw
  let u : Scene := { s with ambient := { s.ambient with boundaries := s.ambient.boundaries + 1 } }
  have hu : u.Counts a path cursor start :=
    hs.of_keeps ⟨hs.isSound.cipher, hs.isSound.engine, hs.isSound.clock⟩ ⟨rfl, rfl, rfl⟩
  have hrun : increment ctx raw s = (cursorFor session path >>= draw path) u := by
    rw [increment_eq, opening_of_verdict hctx hsession hroot, hraw]
  have hsound : (Call.after (increment ctx raw s)).IsSound a :=
    Command.isSound_run ha hs.isSound (.increment ctx raw)
  by_cases hspent : ∀ c ∈ cursor, c.isSpent = true
  · have hcursor : cursorFor session path = reserve a path := by
      rw [cursorFor_of_spent (hfind ▸ hspent), hcipher]
    by_cases hroom : start + 1000 < Cursor.wordLimit
    · obtain ⟨t, hreserves, hok⟩ := reserve_of_room ha hfits hu hroom
      have hopen : t.store.session = some session := by rw [hreserves.store]; exact hsession
      have hstart := counterStart?_of_reserves hu.isSound hreserves
      obtain ⟨hanswer, hafter⟩ := counts_of_draw hrun ((congrFun hcursor u).trans hok) hopen hstart
        (by dsimp only; omega) hsound
      rw [hanswer]
      exact ⟨_, _, .fresh hspent hroom, hafter⟩
    · have hfull := Nat.not_lt.1 hroom
      have herror : increment ctx raw s = .error (.incrementExhausted path) u := by
        rw [hrun, hcursor]
        exact Call.bind_error (reserve_of_full hu hfull)
      rw [herror]
      exact ⟨_, _, .refused hspent hfull, hu⟩
  · obtain ⟨c, rfl, hlive⟩ : ∃ c, cursor = some c ∧ c.isSpent = false := by
      cases cursor with
      | none => simp at hspent
      | some c => exact ⟨c, rfl, by simpa using hspent⟩
    have hlt := Cursor.isSpent_eq_false_iff.1 hlive
    obtain ⟨hanswer, hafter⟩ := counts_of_draw hrun (cursorFor_of_live hfind hlive u) hsession
      hu.start hlt hsound
    rw [hanswer]
    exact ⟨_, _, .next rfl hlt, hafter⟩

/-! ## Counters that are created -/

/-- A document that is created with the fields of a counter is a counter. -/
theorem counts_of_create (ha : a.Lawful) (hpath : Path.IsLocation path) (hfits : Counter.Fits path)
    (hs : s.IsSound a) (hcursor : s.cursor? path = some cursor)
    (habsent : s.ambient.engine.value? path = none) {next : Nat} (hnext : next < Cursor.wordLimit)
    {raw : String} (hraw : Path.normalize raw = path) :
    (Command.run a s (.create .background raw (Counter.fieldsFor next))).Counts a path cursor
      next := by
  have hroot := hpath.isRoot_eq_false hraw
  subst hraw
  have hsound := Command.isSound_run ha hs (.create .background raw (Counter.fieldsFor next))
  obtain ⟨session, hsession, -⟩ := Option.map_eq_some_iff.1 hcursor
  obtain rfl := hs.cipher session hsession
  refine ⟨hsound, ?_, ?_⟩
  · exact (Command.cursor?_run ha hs rfl).trans hcursor
  · let r := create .background raw (Counter.fieldsFor next) s
    show (Call.after r).ambient.engine.counterStart? session.cipher (Path.normalize raw) = some next
    unfold r
    let u : Scene :=
      { s with ambient := { s.ambient with boundaries := s.ambient.boundaries + 1 } }
    have hexists : onBarrier (Path.normalize raw) (Barrier.exists? (Path.normalize raw)) u =
        .ok false u := by
      have hfound := hs.engine.exists? (Path.normalize raw)
      rw [habsent] at hfound
      exact onBarrier_ok (Barrier.onEngine_ok hfound)
    have hu : u.IsSound session.cipher := ⟨hs.cipher, hs.engine, hs.clock⟩
    obtain ⟨time, v, hnow, htime, hv⟩ := exists_now hu
    unfold create
    rw [opening_of_isOpen hsession hroot, Call.bind_ok hexists, if_neg Bool.false_ne_true,
      Call.bind_ok hnow]
    rcases writeRecord_of_isHealthy ha hv
        ⟨Path.normalize raw, Counter.fieldsFor next, time, time⟩ with
      ⟨-, c, hdecrypt, hwrite⟩ | ⟨hlong, -⟩
    · rw [Call.bind_ok hwrite]
      let e : Engine := { v.ambient.engine with
        contents := v.ambient.engine.contents.put (Path.normalize raw) c }
      have hvalue : e.value? (Path.normalize raw) = some c := Contents.value?_put_self _ _ _
      exact Engine.counterStart?_of_counter hvalue hdecrypt hnext htime htime
    · exact absurd (hfits next hnext _ _ htime htime) hlong

end Store

/-- A new store that was opened over an empty engine, with a counter at `/n` whose next batch
starts at `next`. -/
def Scene.ofCounter (next : Nat) : Scene :=
  let opened := Command.run (Key.uniform 7).cipher ⟨.new .standard,
    { engine := default, clock := .standard, entropy := ⟨fun _ => 0, 0⟩ }⟩ (.openStore .background)
  Command.run (Key.uniform 7).cipher opened (.create .background "n" (Counter.fieldsFor next))

/-- The scene with a counter counts from the number that it was given. -/
theorem Scene.counts_ofCounter {next : Nat} (h : next < Cursor.wordLimit) :
    (ofCounter next).Counts (Key.uniform 7).cipher "/n" none next := by
  have hclosed : Scene.IsSound (Key.uniform 7).cipher ⟨.new .standard,
      { engine := default, clock := .standard, entropy := ⟨fun _ => 0, 0⟩ }⟩ :=
    ⟨fun _ hsession => absurd hsession (by simp [Store.new]),
      ⟨.inl rfl, rfl, trivial⟩, (Clock.isProper_ticking _).isValid⟩
  have hopened := Command.isSound_run (Key.uniform 7).lawful_cipher hclosed (.openStore .background)
  exact Store.counts_of_create (Key.uniform 7).lawful_cipher ⟨by decide, by decide⟩
    (Counter.fits_of_length (by decide)) hopened rfl rfl h (by decide)

/-! ## Calls that leave a counter -/

namespace Store

open StoreCall

variable {a : Aead} {s : Scene}

/-- What is stopped at its boundary keeps the scene. -/
theorem keeps_increment_of_interruption {ctx : Context} {i : Interruption}
    (hctx : ctx.verdict s.ambient.boundaries = some i) (raw : String) :
    s.Keeps (Call.after (increment ctx raw s)) := by
  obtain ⟨t, hboundary⟩ := boundary_of_interruption hctx
  have herror : increment ctx raw s = .error (.ofInterruption i) t := Call.bind_error hboundary
  rw [herror]
  exact (leads_boundary ctx).keeps.error hboundary

/-- So does what would open an open store. -/
theorem keeps_openWith_of_isOpen (ctx : Context) {session : Session}
    (hopen : s.store.session = some session) : s.Keeps (Call.after (openWith ctx a s)) := by
  unfold openWith
  rcases fails_or_ok (leads_prepare ctx).keeps _ s with ⟨e, t, ht, hrun⟩ | ⟨_, t, -, hprepare, -⟩
  · rw [hrun]
    exact ht
  · obtain ⟨_, u, hboundary, hclosed⟩ := Call.exists_of_bind_ok hprepare
    have hu := (leads_boundary ctx).keeps.ok hboundary
    unfold ensureClosed at hclosed
    rw [hu.store, hopen] at hclosed
    simp at hclosed

end Store

/-! ## The answers of a counter -/

/-- A cursor whose numbers fit a word. -/
structure Cursor.FitsWord (c : Cursor) : Prop where
  current_le : c.current ≤ c.ceiling
  ceiling_lt : c.ceiling < wordLimit

namespace Counter

/-- A number that is stored fits a word. -/
theorem lt_wordLimit_of_stored? {fields : Fields} {n : Nat} (h : stored? fields = some n) :
    n < Cursor.wordLimit := by
  obtain ⟨v, -, hword⟩ := Option.bind_eq_some_iff.1 h
  unfold Json.Value.toWord? at hword
  unfold Cursor.wordLimit
  split at hword
  · split_ifs at hword with hrange
    obtain rfl := Option.some.inj hword
    omega
  · simp at hword

/-- The stored start of the next batch fits a word. -/
theorem lt_wordLimit_of_counterStart? {a : Aead} {path : String} {e : Engine} {start : Nat}
    (h : e.counterStart? a path = some start) : start < Cursor.wordLimit := by
  obtain ⟨x, -, hx⟩ := Engine.counterStart?_eq_some_iff.1 h
  cases x with
  | none =>
    obtain rfl := Option.some.inj hx
    decide
  | some r => exact lt_wordLimit_of_stored? hx

/-- The next cursor of a counter fits a word as well. -/
theorem Takes.fitsWord {path : String} {cursor cursor' : Option Cursor} {start start' : Nat}
    {answer : Except StoreError String} (h : Takes path cursor start answer cursor' start')
    (hcursor : ∀ c ∈ cursor, c.FitsWord) : ∀ c ∈ cursor', c.FitsWord := by
  intro c hc
  cases h with
  | next hd hlive =>
    obtain rfl := Option.some.inj hc
    have hold := hcursor _ hd
    exact ⟨hlive, hold.ceiling_lt⟩
  | fresh _ hroom =>
    obtain rfl := Option.some.inj hc
    exact ⟨by dsimp only; omega, by dsimp only; omega⟩
  | refused _ _ => exact hcursor c hc

/-- What may happen to an open store from one increment of a counter to the next, and the answer of
the increment if its caller does not stop it. -/
inductive Moves (a : Aead) (path : String) (s : Scene) :
    Option (Except StoreError String) → Scene → Prop
  | increment {ctx : Context} {raw : String} (hraw : Path.normalize raw = path)
      (hctx : ctx.verdict s.ambient.boundaries = none) :
    Moves a path s (some (Call.answer (Store.increment ctx raw s)))
      (Call.after (Store.increment ctx raw s))
  /-- The caller stops an increment before it begins. -/
  | stopped {ctx : Context} {raw : String} {i : Interruption}
      (hctx : ctx.verdict s.ambient.boundaries = some i) :
    Moves a path s none (Call.after (Store.increment ctx raw s))
  /-- The store does something else that writes nothing to the path. -/
  | aside {c : Command} (hclose : c ≠ .closeStore) (hpath : ¬ c.Targets path) :
    Moves a path s none (c.run a s)
  /-- Others have used the engine, though not at the path, and time has passed. -/
  | elsewhere {ambient : Ambient}
      (hvalue : ambient.engine.value? path = s.ambient.engine.value? path)
      (hengine : ambient.engine.IsHealthy) (hclock : ambient.clock.IsValid) :
    Moves a path s none ⟨s.store, ambient⟩

/-- A run from the scene `s`, with the answers of the increments of the counter. -/
inductive Run (a : Aead) (path : String) (s : Scene) :
    List (Except StoreError String) → Scene → Prop
  | start : Run a path s [] s
  | move {answers : List (Except StoreError String)} {answer : Option (Except StoreError String)}
      {t u : Scene} (hrun : Run a path s answers t) (hmove : Moves a path t answer u) :
    Run a path s (answers ++ answer.toList) u

variable {a : Aead} {path : String} {cursor : Option Cursor} {first start : Nat} {s t : Scene}
  {answers : List (Except StoreError String)}

/-- What is no increment of the counter leaves it where it stands. -/
theorem Moves.counts (ha : a.Lawful) (hpath : Path.IsLocation path)
    (hs : s.Counts a path cursor start) (h : Moves a path s none t) :
    t.Counts a path cursor start := by
  cases h with
  | stopped hctx =>
    exact hs.of_keeps (Command.isSound_run ha hs.isSound (.increment _ _))
      (Store.keeps_increment_of_interruption hctx _)
  | @aside c hclose htargets =>
    have hsound := Command.isSound_run ha hs.isSound c
    cases hdraws : c.draws path with
    | true =>
      cases c with
      | openStore ctx =>
        obtain ⟨session, hopen, -, -⟩ := hs.exists_session
        exact hs.of_keeps hsound (Store.keeps_openWith_of_isOpen ctx hopen)
      | closeStore => exact absurd rfl hclose
      | increment ctx raw =>
        have hraw : Path.normalize raw = path := of_decide_eq_true hdraws
        exact absurd ⟨hpath.isRoot_eq_false hraw, hraw.symm⟩ htargets
      | _ => simp [Command.draws] at hdraws
    | false =>
      refine ⟨hsound, (Command.cursor?_run ha hs.isSound hdraws).trans hs.cursor, ?_⟩
      rw [← hs.start]
      exact Engine.counterStart?_congr (c.value?_run a htargets s)
  | elsewhere hvalue hengine hclock =>
    refine ⟨⟨hs.isSound.cipher, hengine, hclock⟩, hs.cursor, ?_⟩
    rw [← hs.start]
    exact Engine.counterStart?_congr hvalue

/-- Along a run every increment answers with the number of its place. -/
theorem Run.stage (ha : a.Lawful) (hpath : Path.IsLocation path) (hfits : Fits path)
    (hs : s.Counts a path none first) (h : Run a path s answers t) :
    (∀ j answer, answers[j]? = some answer → Shows path (number first j) answer) ∧
      ∃ cursor start, t.Counts a path cursor start ∧ Stage first answers.length cursor start ∧
        ∀ c ∈ cursor, c.FitsWord := by
  induction h with
  | start =>
    refine ⟨by simp, none, first, hs, .due (by simp) rfl (by simp), by simp⟩
  | @move answers answer t u hrun hmove ih =>
    obtain ⟨hanswers, cursor, start, hcounts, hstage, hword⟩ := ih
    cases answer with
    | none =>
      rw [Option.toList_none, List.append_nil]
      exact ⟨hanswers, cursor, start, hmove.counts ha hpath hcounts, hstage, hword⟩
    | some answer =>
      obtain ⟨cursor', start', htakes, hafter⟩ : ∃ cursor' start',
          Takes path cursor start answer cursor' start' ∧ u.Counts a path cursor' start' := by
        cases hmove with
        | increment hraw hctx => exact Store.takes_increment ha hpath hfits hcounts hctx hraw
      obtain ⟨hshows, hstage'⟩ := hstage.takes htakes
      refine ⟨?_, cursor', start', hafter, by simpa using hstage', htakes.fitsWord hword⟩
      intro j x hx
      rw [Option.toList_some, List.getElem?_append] at hx
      split_ifs at hx with hj
      · exact hanswers j x hx
      · obtain ⟨hlast, rfl⟩ : j - answers.length = 0 ∧ answer = x := by
          simpa [List.getElem?_singleton] using hx
        obtain rfl : j = answers.length := by omega
        exact hshows

/-- A counter that has no cursor yet and whose first batch starts at `first` answers its increments
one after the other with the numbers of their places, and with exhaustion where a number has more
than fifteen digits.  It then stays exhausted, and no number of its cursor or its document ever
exceeds a word. -/
theorem answers_eq_sequence (k : Key) (hpath : Path.IsLocation path) (hfits : Fits path)
    (hs : s.Counts k.cipher path none first) (h : Run k.cipher path s answers t) :
    (∀ j answer, answers[j]? = some answer → Shows path (number first j) answer) ∧
      (∀ (i j : Nat) answer, i ≤ j → answers[i]? = some (.error (.incrementExhausted path)) →
        answers[j]? = some answer → answer = .error (.incrementExhausted path)) ∧
      ∃ cursor start, t.Counts k.cipher path cursor start ∧ start < Cursor.wordLimit ∧
        ∀ c ∈ cursor, c.FitsWord := by
  obtain ⟨hanswers, cursor, start, hcounts, -, hword⟩ := h.stage k.lawful_cipher hpath hfits hs
  refine ⟨hanswers, ?_, cursor, start, hcounts, lt_wordLimit_of_counterStart? hcounts.start, hword⟩
  intro i j answer hij hi hj
  exact (hanswers i _ hi).exhausted (number_le hij) (hanswers j answer hj)

/-- A counter whose next batch starts right below the last identifier answers with that one and is
exhausted then, with a document and a stopped increment between. -/
theorem answers_at_last_identifier :
    let a := (Key.uniform 7).cipher
    let s := Scene.ofCounter 999999999999998
    let x := Store.increment .background "n" s
    let u := Command.run a (Call.after x) (.create .background "m" [])
    let v := Call.after (Store.increment (.steady (some .cancelled)) "n" u)
    let y := Store.increment .background "/n/" v
    let z := Store.increment .background "n" (Call.after y)
    Path.IsLocation "/n" ∧ Fits "/n" ∧ s.Counts a "/n" none 999999999999998 ∧
      Run a "/n" s [Call.answer x, Call.answer y, Call.answer z] (Call.after z) ∧
      (∃ text, Call.answer x = .ok text ∧ IsForm 999999999999999 text) ∧
      Call.answer y = .error (.incrementExhausted "/n") ∧
      Call.answer z = .error (.incrementExhausted "/n") := by
  intro a s x u v y z
  have hpath : Path.IsLocation "/n" := ⟨by decide, by decide⟩
  have hfits : Fits "/n" := fits_of_length (by decide)
  have hs : s.Counts a "/n" none 999999999999998 := Scene.counts_ofCounter (by decide)
  have hx : Moves a "/n" s (some (Call.answer x)) (Call.after x) := .increment (by decide) rfl
  have hother : Path.normalize "m" ≠ "/n" := by decide
  have hu : Moves a "/n" (Call.after x) none u := .aside (by simp) fun hm => hother hm.2.symm
  have hv : Moves a "/n" u none v := .stopped rfl
  have hy : Moves a "/n" v (some (Call.answer y)) (Call.after y) := .increment (by decide) rfl
  have hz : Moves a "/n" (Call.after y) (some (Call.answer z)) (Call.after z) :=
    .increment (by decide) rfl
  have hrun : Run a "/n" s [Call.answer x, Call.answer y, Call.answer z] (Call.after z) :=
    ((((Run.start.move hx).move hu).move hv).move hy).move hz
  obtain ⟨hanswers, hstays, -⟩ := answers_eq_sequence (Key.uniform 7) hpath hfits hs hrun
  have hfirst : Shows "/n" 999999999999999 (Call.answer x) := hanswers 0 _ rfl
  have hsecond : Shows "/n" 1000000000000000 (Call.answer y) := hanswers 1 _ rfl
  unfold Shows at hfirst hsecond
  rw [if_pos (by decide)] at hfirst
  rw [if_neg (by decide)] at hsecond
  have hthird := hstays 1 2 (Call.answer z) (by decide) (congrArg some hsecond) rfl
  exact ⟨hpath, hfits, hs, hrun, hfirst, hsecond, hthird⟩

end Counter

end Strongbox
