import Strongbox.Proofs.Store.Sequence

/-!
# Increments that fail

An increment stores the start of the batch after its own before it draws a number, and it formats
the number last.  So it can fail after it has written: where it reserves a batch behind the last
identifier, the counter's document is rewritten though no identifier is returned.  Whatever else
makes an increment fail leaves the contents of the engine as they were.  The main statement is
`Store.contents_eq_or_oversteps`.
-/

set_option autoImplicit false

namespace Strongbox

namespace Store

open StoreCall

/-- A batch is reserved in vain: the session has no cursor to draw from, the batch starts at or
behind the last identifier, and the counter's document, and it alone, holds the start of the next
one under the time of creation it had. -/
structure Oversteps (session : Session) (path : String) (start : Nat) (s t : Scene) : Prop where
  isOpen : s.store.session = some session
  isSpent : ∀ c, session.cursors.find? path = some c → c.isSpent = true
  tooLarge : 999999999999999 ≤ start
  isWord : start + 1000 < Cursor.wordLimit
  written : ∃ r c time, s.ambient.engine.record? session.cipher path = .ok (some r) ∧
    Counter.stored? r.fields = some start ∧ t.ambient.engine.value? path = some c ∧
    Stream.decrypt session.cipher c =
      .ok (Record.toBytes ⟨path, Counter.fieldsFor (start + 1000), r.createdAt, time⟩) ∧
    ∃ i, s.ambient.clock.readings i = time
  others : ∀ other, other ≠ path → t.ambient.engine.value? other = s.ambient.engine.value? other

variable {ctx : Context} {raw path : String} {session : Session} {start : Nat} {s t u : Scene}

/-- No identifier is issued only beyond the greatest one. -/
theorem lt_of_issue_eq_error {n : Nat} {e : StoreError} (h : issue path n = .error e) :
    Counter.maxId < n ∧ e = .incrementExhausted path := by
  unfold issue at h
  split at h
  · simp at h
  · rename_i hnone
    refine ⟨?_, (Except.error.inj h).symm⟩
    by_contra hle
    rw [Counter.formatId_eq_some_iff.2 ⟨Nat.le_of_not_lt hle, rfl⟩] at hnone
    simp at hnone

/-- A batch that is reserved so far behind is not the first one of its counter. -/
theorem oversteps_of_reserves (hopen : s.store.session = some session)
    (hspent : ∀ c, session.cursors.find? path = some c → c.isSpent = true)
    (hlarge : 999999999999999 ≤ start) (h : Reserves session.cipher path start s u)
    (hambient : t.ambient = u.ambient) : Oversteps session path start s t := by
  obtain ⟨c, createdAt, time, hvalue, hdecrypt, hclock, hcreated⟩ := h.written
  rw [← hambient] at hvalue
  refine ⟨hopen, hspent, hlarge, h.isWord, ?_, ?_⟩
  · obtain ⟨x, hx, hstart⟩ := Engine.counterStart?_eq_some_iff.1 h.stored
    cases x with
    | none =>
      obtain rfl : 0 = start := Option.some.inj hstart
      omega
    | some r =>
      obtain rfl : createdAt = r.createdAt := hcreated (some r) hx
      exact ⟨r, c, time, hx, hstart, hvalue, hdecrypt, hclock⟩
  · rw [hambient]
    exact h.others

/-! ## Counters behind the last identifier -/

section Behind

variable {a : Aead} {cursor cursor' : Option Cursor} {start' : Nat}
  {answer : Except StoreError String}

/-- Where there is no cursor to draw from, a batch is reserved if it fits the word. -/
theorem eq_of_takes_fresh (h : Counter.Takes path cursor start answer cursor' start')
    (hspent : ∀ c ∈ cursor, c.isSpent = true) (hroom : start + 1000 < Cursor.wordLimit) :
    cursor' = some ⟨start + 1, start + 999⟩ ∧ start' = start + 1000 := by
  cases h with
  | next hc hlive => exact absurd hlive (Cursor.not_lt_of_isSpent (hspent _ hc))
  | fresh _ _ => exact ⟨rfl, rfl⟩
  | refused _ hfull => omega

/-- Where cursor and document are at the greatest number, no identifier is taken. -/
theorem eq_exhausted_of_takes (h : Counter.Takes path cursor start answer cursor' start')
    (hcursor : ∀ c ∈ cursor, Counter.maxId ≤ c.current) (hstart : Counter.maxId ≤ start) :
    answer = .error (.incrementExhausted path) := by
  have hissue : ∀ {n}, Counter.maxId ≤ n →
      issue path (n + 1) = .error (.incrementExhausted path) := by
    intro n hn
    unfold issue
    rw [Counter.formatId_eq_none (Nat.lt_succ_of_le hn)]
  cases h with
  | @next c hc _ => exact hissue (hcursor c hc)
  | fresh _ _ => exact hissue hstart
  | refused _ _ => rfl

/-- A counter behind the last identifier fails, and where it has no cursor to draw from it stores
the start of another batch before it does. -/
theorem increment_behind_last (ha : a.Lawful) (hpath : Path.IsLocation path)
    (hfits : Counter.Fits path) (hs : s.Counts a path cursor start)
    (hcursor : ∀ c ∈ cursor, Counter.maxId ≤ c.current) (hstart : Counter.maxId ≤ start)
    (ctx : Context) (hctx : ctx.verdict s.ambient.boundaries = none) (raw : String)
    (hraw : Path.normalize raw = path) :
    ∃ cursor' start' t, increment ctx raw s = .error (.incrementExhausted path) t ∧
      t.Counts a path cursor' start' ∧
      ((∀ c ∈ cursor, c.isSpent = true) → start + 1000 < Cursor.wordLimit →
        cursor' = some ⟨start + 1, start + 999⟩ ∧ start' = start + 1000) := by
  obtain ⟨cursor', start', htakes, hafter⟩ := takes_increment ha hpath hfits hs hctx hraw
  have herror := Call.eq_error_of_answer (eq_exhausted_of_takes htakes hcursor hstart)
  exact ⟨cursor', start', _, herror, hafter, eq_of_takes_fresh htakes⟩

/-- A counter that starts elsewhere is stored elsewhere. -/
theorem contents_ne_of_counts {t : Scene} (hs : s.Counts a path cursor start)
    (ht : t.Counts a path cursor' start') (hne : start' ≠ start) :
    t.ambient.engine.contents ≠ s.ambient.engine.contents := by
  intro hsame
  have hvalue : t.ambient.engine.value? path = s.ambient.engine.value? path := by
    unfold Engine.value?
    rw [hsame]
  have hstart := Engine.counterStart?_congr (a := a) hvalue
  rw [ht.start, hs.start] at hstart
  exact hne (Option.some.inj hstart)

end Behind

/-! ## What a failed increment leaves -/

/-- An increment that fails leaves the contents of the engine, unless it fails because it has
reserved a batch in vain. -/
theorem contents_eq_or_oversteps {e : StoreError}
    (hcipher : ∀ session, s.store.session = some session → ∃ k : Key, session.cipher = k.cipher)
    (h : increment ctx raw s = .error e t) :
    t.ambient.engine.contents = s.ambient.engine.contents ∨
      e = .incrementExhausted (Path.normalize raw) ∧
        ∃ session start, Oversteps session (Path.normalize raw) start s t := by
  obtain ⟨a, ha, hsame⟩ : ∃ a : Aead, a.Lawful ∧
      ∀ session, s.store.session = some session → session.cipher = a := by
    cases hsession : s.store.session with
    | none => exact ⟨_, (Key.uniform 0).lawful_cipher, by simp⟩
    | some session =>
      obtain ⟨k, hk⟩ := hcipher session hsession
      refine ⟨k.cipher, k.lawful_cipher, ?_⟩
      rintro _ ⟨⟩
      exact hk
  rcases increment_cases ha ctx raw hsame with
    ⟨e', t', hkeeps, hrun⟩ | ⟨session, c, u, hopen, hprovides, -, hafter, hanswer⟩
  · rw [h] at hrun
    injection hrun with _ ht
    rw [ht]
    exact .inl hkeeps.contents
  · rw [h] at hafter hanswer
    have hambient : t.ambient = u.ambient := by
      have hscene : t = ⟨_, u.ambient⟩ := hafter
      rw [hscene]
    obtain ⟨hlarge, hexhausted⟩ := lt_of_issue_eq_error hanswer.symm
    obtain rfl := hsame session hopen
    cases hprovides with
    | kept _ hkeeps =>
      refine .inl ?_
      rw [hambient]
      exact hkeeps.contents
    | @reserved start _ hspent hreserves =>
      have htooLarge : 999999999999999 ≤ start := Nat.le_of_lt_succ hlarge
      exact .inr ⟨hexhausted, session, start,
        oversteps_of_reserves hopen hspent htooLarge hreserves hambient⟩

/-- An increment behind the last identifier reserves a batch in vain; the next one fails in the
middle of that batch and leaves the contents. -/
theorem contents_after_two_failures :
    let s := Scene.ofCounter 999999999999999
    ∃ t u, increment .background "n" s = .error (.incrementExhausted "/n") t ∧
      (∃ session start, Oversteps session "/n" start s t) ∧
      increment .background "n" t = .error (.incrementExhausted "/n") u ∧
      u.ambient.engine.contents = t.ambient.engine.contents := by
  intro s
  have hlawful := (Key.uniform 7).lawful_cipher
  have hpath : Path.IsLocation "/n" := ⟨by decide, by decide⟩
  have hfits : Counter.Fits "/n" := Counter.fits_of_length (by decide)
  have hraw : Path.normalize "n" = "/n" := by decide
  have hs : s.Counts _ "/n" none 999999999999999 := Scene.counts_ofCounter (by decide)
  obtain ⟨_, _, t, herror, ht, hfresh⟩ :=
    increment_behind_last hlawful hpath hfits hs (by simp) (by decide) .background rfl "n" hraw
  obtain ⟨rfl, rfl⟩ := hfresh (by simp) (by decide)
  obtain ⟨_, _, u, herror', -, -⟩ :=
    increment_behind_last hlawful hpath hfits ht (by simp [Counter.maxId]) (by decide)
      .background rfl "n" hraw
  have hfirst := contents_eq_or_oversteps
    (fun session h => ⟨Key.uniform 7, hs.isSound.cipher session h⟩) herror
  have hsecond := contents_eq_or_oversteps
    (fun session h => ⟨Key.uniform 7, ht.isSound.cipher session h⟩) herror'
  rw [hraw] at hfirst hsecond
  refine ⟨t, u, herror, ?_, herror', ?_⟩
  · obtain ⟨-, hoversteps⟩ := hfirst.resolve_left (contents_ne_of_counts hs ht (by decide))
    exact hoversteps
  · refine hsecond.resolve_right ?_
    rintro ⟨-, session, start, hoversteps⟩
    obtain ⟨session', hopen, -, hfind⟩ := ht.exists_session
    obtain rfl : session = session' := Option.some.inj (hoversteps.isOpen.symm.trans hopen)
    have hspent := hoversteps.isSpent _ hfind
    simp [Cursor.isSpent] at hspent

/-- A failed increment that changes the contents. -/
theorem contents_ne_after_failure :
    ∃ t, increment .background "n" (Scene.ofCounter 999999999999999) =
        .error (.incrementExhausted "/n") t ∧
      t.ambient.engine.contents ≠ (Scene.ofCounter 999999999999999).ambient.engine.contents := by
  have hs : Scene.Counts _ "/n" none 999999999999999 _ := Scene.counts_ofCounter (by decide)
  obtain ⟨_, _, t, herror, ht, hfresh⟩ :=
    increment_behind_last (Key.uniform 7).lawful_cipher ⟨by decide, by decide⟩
      (Counter.fits_of_length (by decide)) hs (by simp) (by decide) .background rfl "n" (by decide)
  obtain ⟨-, rfl⟩ := hfresh (by simp) (by decide)
  exact ⟨t, herror, contents_ne_of_counts hs ht (by decide)⟩

end Store

end Strongbox
