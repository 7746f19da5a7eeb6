import Linux011.Tty.Write

/-!
# The saved position

What `con_write` does with `saved_x` and `saved_y`. In state 1 it compares the column with `'7'` and
`'8'`, and not the character.

1. `Recognised`: ESC 7 and ESC 8 are told from the rest, and ESC Z is not echoed. `Saves`.
2. `Keeps`: what nothing changes but `save_cur` and `respond`. `Effect`: what a byte does; `conByte_effect`.
3. `feed_spared`, `feed_save`, `feed_restore`; `saved_cursor`.
-/

namespace Linux011.Tty

open X86

namespace Console

variable (con : Console)

/-- The characters that state 1 looks at. -/
def escapes : List (BitVec 8) := [code '[', code 'E', code 'M', code 'D', code 'Z']

/-- `ERASE_CHAR` and `L_ECHO` of the terminal. -/
structure Setting where
  verase : BitVec 8
  echo : Bool

/-- If the byte `c` comes after an ESC, the cursor is in the column 55 for a 7, in the column 56 for an 8,
and in neither for what state 1 does not know. An ESC Z is not answered on a terminal that echoes: the
`con_write` that writes the echo would take the rest of the bytes. -/
def Recognised (u : Setting) (c : BitVec 8) : Prop :=
  con.state = 1 → (c = code 'Z' → u.echo = false) ∧
    (c ∉ escapes → (c = code '7' ↔ con.x = 55) ∧ (c = code '8' ↔ con.x = 56))

instance (u : Setting) (c : BitVec 8) : Decidable (con.Recognised u c) :=
  inferInstanceAs (Decidable (_ → _))

/-- The byte is the last one of ESC 7, or of ESC [ s, perhaps with parameters. -/
def Saves (c : BitVec 8) : Prop :=
  con.state = 1 ∧ c = code '7' ∨ 2 ≤ con.state ∧ c = code 's'

instance (c : BitVec 8) : Decidable (con.Saves c) :=
  inferInstanceAs (Decidable (_ ∨ _))

/-- Bytes, each with the settings of its time. -/
abbrev Bytes := List (Setting × BitVec 8)

def feed (ws : Bytes) : Console := ws.foldl (fun con w => con.conByte w.1.verase w.2) con

/-- Every byte is recognised. -/
def Recognises (con : Console) : Bytes → Prop
  | [] => True
  | w :: ws => con.Recognised w.1 w.2 ∧ (con.conByte w.1.verase w.2).Recognises ws

/-- There is no save sequence. -/
def Unsaved (con : Console) : Bytes → Prop
  | [] => True
  | w :: ws => ¬con.Saves w.2 ∧ (con.conByte w.1.verase w.2).Unsaved ws

instance (con : Console) (ws : Bytes) : Decidable (con.Recognises ws) := by
  induction ws generalizing con with
  | nil => exact isTrue trivial
  | cons w ws ih => exact @instDecidableAnd _ _ _ (ih _)

instance (con : Console) (ws : Bytes) : Decidable (con.Unsaved ws) := by
  induction ws generalizing con with
  | nil => exact isTrue trivial
  | cons w ws ih => exact @instDecidableAnd _ _ _ (ih _)

end Console

/-! ## What a byte does -/

structure Keeps (con con' : Console) : Prop where
  columns : con'.videoNumColumns = con.videoNumColumns
  lines : con'.videoNumLines = con.videoNumLines
  savedX : con'.savedX = con.savedX
  savedY : con'.savedY = con.savedY
  answers : con'.answers = con.answers

namespace Keeps

variable {con con' con₀ : Console}

theorem refl (con : Console) : Keeps con con := ⟨rfl, rfl, rfl, rfl, rfl⟩

theorem trans (h : Keeps con₀ con) (h' : Keeps con con') : Keeps con₀ con' :=
  ⟨h'.columns.trans h.columns, h'.lines.trans h.lines, h'.savedX.trans h.savedX,
    h'.savedY.trans h.savedY, h'.answers.trans h.answers⟩

theorem ite {p : Prop} [Decidable p] {c d : Console} (hc : Keeps con c) (hd : Keeps con d) :
    Keeps con (if p then c else d) := by
  split_ifs
  · exact hc
  · exact hd

theorem gotoxy (con : Console) (newX newY : Word) : Keeps con (con.gotoxy newX newY) :=
  .ite (.refl con) ⟨rfl, rfl, rfl, rfl, rfl⟩

theorem scrup (con : Console) : Keeps con con.scrup := by
  have hregion : Keeps con con.scrollRegion := ⟨rfl, rfl, rfl, rfl, rfl⟩
  refine .ite (.ite ?_ hregion) hregion
  exact .ite ⟨rfl, rfl, rfl, rfl, rfl⟩ ⟨rfl, rfl, rfl, rfl, rfl⟩

theorem scrdown (con : Console) : Keeps con con.scrdown := ⟨rfl, rfl, rfl, rfl, rfl⟩

theorem lf (con : Console) : Keeps con con.lf := .ite ⟨rfl, rfl, rfl, rfl, rfl⟩ (.scrup con)

theorem ri (con : Console) : Keeps con con.ri := .ite ⟨rfl, rfl, rfl, rfl, rfl⟩ (.scrdown con)

theorem del (con : Console) : Keeps con con.del := .ite ⟨rfl, rfl, rfl, rfl, rfl⟩ (.refl con)

theorem wrap (con : Console) : Keeps con con.wrap := by
  have h : Keeps con { con with x := con.x - con.videoNumColumns, pos := con.pos - con.videoSizeRow } :=
    ⟨rfl, rfl, rfl, rfl, rfl⟩
  exact h.trans (.lf _)

theorem put (con : Console) (c : BitVec 8) : Keeps con (con.put c) := ⟨rfl, rfl, rfl, rfl, rfl⟩

theorem printing (con : Console) (c : BitVec 8) : Keeps con (con.printing c) :=
  .ite ((Keeps.wrap con).trans (.put _ c)) (.put con c)

theorem tab (con : Console) : Keeps con con.tab := by
  unfold Console.tab
  dsimp only
  refine .ite (trans ?_ (.wrap _)) ⟨rfl, rfl, rfl, rfl, rfl⟩
  exact ⟨rfl, rfl, rfl, rfl, rfl⟩

theorem ground (con : Console) (verase c : BitVec 8) : Keeps con (con.ground verase c) := by
  unfold Console.ground
  refine .ite (.printing con c) ?_
  refine .ite ⟨rfl, rfl, rfl, rfl, rfl⟩ ?_
  refine .ite (.lf con) ?_
  refine .ite ⟨rfl, rfl, rfl, rfl, rfl⟩ ?_
  refine .ite (.del con) ?_
  refine .ite (.ite ⟨rfl, rfl, rfl, rfl, rfl⟩ (.refl con)) ?_
  refine .ite (.tab con) ?_
  exact .ite ⟨rfl, rfl, rfl, rfl, rfl⟩ (.refl con)

theorem setState (con : Console) (n : ℕ) : Keeps con { con with state := n } := ⟨rfl, rfl, rfl, rfl, rfl⟩

theorem setPar (con : Console) (i : ℕ) (v : Word) : Keeps con (con.setPar i v) :=
  ⟨rfl, rfl, rfl, rfl, rfl⟩

theorem fromOne (con : Console) (i : ℕ) : Keeps con (con.fromOne i) := .ite (.setPar con i _) (.refl con)

theorem atLeastOne (con : Console) : Keeps con con.atLeastOne := .ite (.setPar con 0 _) (.refl con)

theorem setRegion (con : Console) : Keeps con con.setRegion := by
  have hone := Keeps.fromOne con 0
  have h : Keeps con (if (con.fromOne 0).par 1 = 0 then
      (con.fromOne 0).setPar 1 (con.fromOne 0).videoNumLines else con.fromOne 0) :=
    .ite (hone.trans (.setPar _ 1 _)) hone
  exact .ite (h.trans ⟨rfl, rfl, rfl, rfl, rfl⟩) h

theorem fromCursor {scroll : Console → Console} (hs : ∀ con, Keeps con (scroll con)) (con : Console) :
    Keeps con (con.fromCursor scroll) := by
  have h := hs { con with top := con.y, bottom := con.videoNumLines }
  exact ⟨h.columns, h.lines, h.savedX, h.savedY, h.answers⟩

theorem repeated {f : Console → Console} (hf : ∀ con, Keeps con (f con)) (con : Console)
    (most nr : Word) : Keeps con (con.repeated f most nr) :=
  Function.Iterate.rec (Keeps con) (.refl con) (fun _ h => h.trans (hf _)) _

theorem csiJ (con : Console) (par : Word) : Keeps con (con.csiJ par) :=
  .ite ⟨rfl, rfl, rfl, rfl, rfl⟩ (.ite ⟨rfl, rfl, rfl, rfl, rfl⟩
    (.ite ⟨rfl, rfl, rfl, rfl, rfl⟩ (.refl con)))

theorem csiK (con : Console) (par : Word) : Keeps con (con.csiK par) :=
  .ite (.ite (.refl con) ⟨rfl, rfl, rfl, rfl, rfl⟩)
    (.ite ⟨rfl, rfl, rfl, rfl, rfl⟩ (.ite ⟨rfl, rfl, rfl, rfl, rfl⟩ (.refl con)))

theorem insertChar (con : Console) : Keeps con con.insertChar := ⟨rfl, rfl, rfl, rfl, rfl⟩

theorem deleteChar (con : Console) : Keeps con con.deleteChar :=
  .ite (.refl con) ⟨rfl, rfl, rfl, rfl, rfl⟩

end Keeps

/-- What the byte `c` does: it may save the cursor, or be answered. -/
inductive Effect (con : Console) (saves replies : Prop) : Console → Prop
  | keeps {con' : Console} : Keeps con con' → Effect con saves replies con'
  | saved {con' : Console} : saves → Keeps con con' → con'.x = con.x → con'.y = con.y →
      Effect con saves replies con'.saveCur
  | replied {con' : Console} : replies → Keeps con con' → Effect con saves replies con'.respond

namespace Effect

variable {con con' con₀ : Console} {saves replies : Prop}

theorem ite {p : Prop} [Decidable p] {c d : Console} (hc : Effect con saves replies c)
    (hd : Effect con saves replies d) : Effect con saves replies (if p then c else d) := by
  split_ifs
  · exact hc
  · exact hd

/-- Where something was done before that moves the cursor no more than it saves. -/
theorem map {saves' replies' : Prop} (h : Effect con₀ saves replies con') (hk : Keeps con con₀)
    (hx : con₀.x = con.x) (hy : con₀.y = con.y) (hs : saves → saves') (hr : replies → replies') :
    Effect con saves' replies' con' := by
  cases h with
  | keeps h => exact .keeps (hk.trans h)
  | saved h h' hx' hy' => exact .saved (hs h) (hk.trans h') (hx'.trans hx) (hy'.trans hy)
  | replied h h' => exact .replied (hr h) (hk.trans h')

theorem of_state {n : ℕ} (h : Effect { con with state := n } saves replies con') :
    Effect con saves replies con' :=
  h.map (.setState con n) rfl rfl id id

/-- The commands. -/
theorem csi (con : Console) (c : BitVec 8) : Effect con (c = code 's') replies (con.csi c) := by
  have hone := Keeps.fromOne con 0
  have htwo := hone.trans (.fromOne _ 1)
  have hleast := Keeps.atLeastOne con
  by_cases hc : c = code 's'
  · subst hc
    exact .saved rfl (.refl con) rfl rfl
  unfold Console.csi
  dsimp only
  rw [if_neg hc]
  apply Effect.keeps
  refine .ite (hone.trans (.gotoxy _ _ _)) ?_
  refine .ite (hleast.trans (.gotoxy _ _ _)) ?_
  refine .ite (hleast.trans (.gotoxy _ _ _)) ?_
  refine .ite (hleast.trans (.gotoxy _ _ _)) ?_
  refine .ite (hleast.trans (.gotoxy _ _ _)) ?_
  refine .ite (hleast.trans (.gotoxy _ _ _)) ?_
  refine .ite (hleast.trans (.gotoxy _ _ _)) ?_
  refine .ite (hone.trans (.gotoxy _ _ _)) ?_
  refine .ite (htwo.trans (.gotoxy _ _ _)) ?_
  refine .ite (.csiJ con _) ?_
  refine .ite (.csiK con _) ?_
  refine .ite (.repeated (fun _ => .fromCursor (fun _ => .scrdown _) _) con _ _) ?_
  refine .ite (.repeated (fun _ => .fromCursor (fun _ => .scrup _) _) con _ _) ?_
  refine .ite (.repeated (fun _ => .deleteChar _) con _ _) ?_
  refine .ite (.repeated (fun _ => .insertChar _) con _ _) ?_
  refine .ite ⟨rfl, rfl, rfl, rfl, rfl⟩ ?_
  refine .ite (.setRegion con) ?_
  exact .ite (.gotoxy con _ _) (.refl con)

theorem parameter (con : Console) (c : BitVec 8) :
    Effect con (c = code 's') replies (con.parameter c) := by
  unfold Console.parameter
  refine .ite (.keeps ⟨rfl, rfl, rfl, rfl, rfl⟩) (.ite (.keeps (.setPar con _ _)) ?_)
  exact of_state (n := 4) (of_state (n := 0) (.csi _ c))

theorem firstParameter (con : Console) (c : BitVec 8) :
    Effect con (c = code 's') replies (con.firstParameter c) := by
  unfold Console.firstParameter
  dsimp only
  refine .ite (.keeps ⟨rfl, rfl, rfl, rfl, rfl⟩) ?_
  refine Effect.map (.parameter _ c) ?_ rfl rfl id id
  exact ⟨rfl, rfl, rfl, rfl, rfl⟩

/-- State 1. -/
theorem escape (con : Console) (c : BitVec 8) :
    Effect con (con.x = 55 ∧ c ∉ Console.escapes) (c = code 'Z') (con.escape c) := by
  have hk := Keeps.setState con 0
  unfold Console.escape
  dsimp only
  split_ifs with h1 h2 h3 h4 h5 h6
  · exact .keeps (hk.trans (.setState _ 2))
  · exact .keeps (hk.trans (.gotoxy _ _ _))
  · exact .keeps (hk.trans (.ri _))
  · exact .keeps (hk.trans (.lf _))
  · exact .replied h5 hk
  · exact .saved ⟨h6, by simp [Console.escapes, h1, h2, h3, h4, h5]⟩ hk rfl rfl
  · exact .keeps (hk.trans (.gotoxy _ _ _))
  · exact .keeps hk

end Effect

/-- The cursor is saved by a command, or in the column 55 in state 1; ESC Z is answered. -/
theorem conByte_effect (con : Console) (verase c : BitVec 8) :
    Effect con (con.state = 1 ∧ con.x = 55 ∧ c ∉ Console.escapes ∨ 2 ≤ con.state ∧ c = code 's')
      (con.state = 1 ∧ c = code 'Z') (con.conByte verase c) := by
  have hcmd : ∀ {con' : Console}, 2 ≤ con.state → Effect con (c = code 's') False con' → Effect con
      (con.state = 1 ∧ con.x = 55 ∧ c ∉ Console.escapes ∨ 2 ≤ con.state ∧ c = code 's')
      (con.state = 1 ∧ c = code 'Z') con' :=
    fun h2 h => h.map (.refl con) rfl rfl (fun hs => .inr ⟨h2, hs⟩) False.elim
  unfold Console.conByte
  split
  · exact .keeps (.ground con verase c)
  · next h1 =>
    exact (Effect.escape con c).map (.refl con) rfl rfl (fun hs => .inl ⟨h1, hs⟩) fun hr => ⟨h1, hr⟩
  · next h2 => exact hcmd (by omega) (.firstParameter con c)
  · next h3 => exact hcmd (by omega) (.parameter con c)
  · next h4 => exact hcmd (by omega) (.of_state (n := 0) (.csi _ c))
  · exact .keeps (.refl con)

/-- There is no answer but to ESC Z. -/
theorem conByte_answers {con : Console} {verase c : BitVec 8} (h : ¬(con.state = 1 ∧ c = code 'Z')) :
    (con.conByte verase c).answers = con.answers := by
  generalize hcon : con.conByte verase c = con'
  cases hcon ▸ conByte_effect con verase c with
  | keeps hk => exact hk.answers
  | saved _ hk _ _ => exact hk.answers
  | replied hr _ => exact absurd hr h

/-! ## Sequences -/

section Sequences

variable {con : Console} {us ws : Console.Bytes}

theorem feed_append : con.feed (us ++ ws) = (con.feed us).feed ws := List.foldl_append

theorem recognises_append :
    con.Recognises (us ++ ws) ↔ con.Recognises us ∧ (con.feed us).Recognises ws := by
  induction us generalizing con with
  | nil => exact ⟨fun h => ⟨trivial, h⟩, fun h => h.2⟩
  | cons u us ih =>
    have h : (con.conByte u.1.verase u.2).Recognises (us ++ ws) ↔ (con.conByte u.1.verase u.2).Recognises us ∧
        ((con.conByte u.1.verase u.2).feed us).Recognises ws := ih
    exact (and_congr_right' h).trans and_assoc.symm

/-- What stays of the screen and of the saved position. -/
structure Spared (con con' : Console) : Prop where
  columns : con'.videoNumColumns = con.videoNumColumns
  lines : con'.videoNumLines = con.videoNumLines
  savedX : con'.savedX = con.savedX
  savedY : con'.savedY = con.savedY

/-- A byte that is recognised, and ends no save sequence. -/
theorem conByte_spared {u : Console.Setting} {c : BitVec 8} (hr : con.Recognised u c)
    (hs : ¬con.Saves c) : Spared con (con.conByte u.verase c) := by
  generalize hcon : con.conByte u.verase c = con'
  cases hcon ▸ conByte_effect con u.verase c with
  | keeps h => exact ⟨h.columns, h.lines, h.savedX, h.savedY⟩
  | replied _ h => exact ⟨h.columns, h.lines, h.savedX, h.savedY⟩
  | saved h =>
    obtain ⟨h1, hx, hmem⟩ | h := h
    · exact absurd (.inl ⟨h1, ((hr h1).2 hmem).1.2 hx⟩) hs
    · exact absurd (.inr h) hs

/-- Bytes without a save sequence. -/
theorem feed_spared (hr : con.Recognises ws) (hs : con.Unsaved ws) : Spared con (con.feed ws) := by
  induction ws generalizing con with
  | nil => exact ⟨rfl, rfl, rfl, rfl⟩
  | cons w ws ih =>
    have h : Spared con (con.conByte w.1.verase w.2) := conByte_spared hr.1 hs.1
    have h' := ih hr.2 hs.2
    exact ⟨h'.columns.trans h.columns, h'.lines.trans h.lines, h'.savedX.trans h.savedX,
      h'.savedY.trans h.savedY⟩

theorem conByte_esc (h0 : con.state = 0) (verase : BitVec 8) :
    con.conByte verase 27 = { con with state := 1 } := by
  unfold Console.conByte
  rw [h0]
  unfold Console.ground
  rw [if_neg (by decide), if_pos rfl]
  rfl

theorem conByte_escaped (h1 : con.state = 1) {verase c : BitVec 8} :
    con.conByte verase c = con.escape c := by
  unfold Console.conByte
  rw [h1]
  rfl

def saveSequences : List (List (BitVec 8)) := [[27, code '7'], [27, code '[', code 's']]

def restoreSequences : List (List (BitVec 8)) := [[27, code '8'], [27, code '[', code 'u']]

/-- The two bytes `ESC [`. -/
theorem conByte_bracket (h0 : con.state = 0) (v₁ v₂ : BitVec 8) :
    (con.conByte v₁ 27).conByte v₂ (code '[') = { con with state := 2 } := by
  rw [conByte_esc h0]
  rfl

theorem of_map_snd_two {a b : BitVec 8} (h : us.map Prod.snd = [a, b]) :
    ∃ v₁ v₂, us = [(v₁, a), (v₂, b)] := by
  have hzip := List.zip_of_prod rfl h
  obtain ⟨v₁, v₂, hv⟩ : ∃ v₁ v₂, us.map Prod.fst = [v₁, v₂] := by
    apply List.length_eq_two.1
    rw [List.length_map, ← List.length_map (f := Prod.snd), h]
    rfl
  rw [hv] at hzip
  exact ⟨v₁, v₂, hzip⟩

theorem of_map_snd_three {a b c : BitVec 8} (h : us.map Prod.snd = [a, b, c]) :
    ∃ v₁ v₂ v₃, us = [(v₁, a), (v₂, b), (v₃, c)] := by
  have hzip := List.zip_of_prod rfl h
  obtain ⟨v₁, v₂, v₃, hv⟩ : ∃ v₁ v₂ v₃, us.map Prod.fst = [v₁, v₂, v₃] := by
    apply List.length_eq_three.1
    rw [List.length_map, ← List.length_map (f := Prod.snd), h]
    rfl
  rw [hv] at hzip
  exact ⟨v₁, v₂, v₃, hzip⟩

theorem feed_save (h0 : con.state = 0) (hsave : us.map Prod.snd ∈ saveSequences)
    (hr : con.Recognises us) : (con.feed us).videoNumColumns = con.videoNumColumns ∧
      (con.feed us).videoNumLines = con.videoNumLines ∧ (con.feed us).savedX = con.x ∧
      (con.feed us).savedY = con.y := by
  rcases List.mem_cons.1 hsave with h | h
  · obtain ⟨v₁, v₂, rfl⟩ := of_map_snd_two h
    have hfeed : con.feed [(v₁, 27), (v₂, code '7')] =
        (con.conByte v₁.verase 27).conByte v₂.verase (code '7') := rfl
    have hr := hr.2.1
    change Console.Recognised (con.conByte v₁.verase 27) v₂ (code '7') at hr
    rw [hfeed]
    rw [conByte_esc h0] at hr ⊢
    have hx : con.x = 55 := ((hr rfl).2 (by decide)).1.1 rfl
    have hsaved : Console.conByte { con with state := 1 } v₂.verase (code '7') =
        Console.saveCur { con with state := 0 } := by
      rw [conByte_escaped rfl]
      unfold Console.escape
      dsimp only
      rw [if_neg (by decide), if_neg (by decide), if_neg (by decide), if_neg (by decide),
        if_neg (by decide), if_pos hx]
    rw [hsaved]
    exact ⟨rfl, rfl, rfl, rfl⟩
  · obtain ⟨v₁, v₂, v₃, rfl⟩ := of_map_snd_three (List.mem_singleton.1 h)
    have hfeed : con.feed [(v₁, 27), (v₂, code '['), (v₃, code 's')] =
        ((con.conByte v₁.verase 27).conByte v₂.verase (code '[')).conByte v₃.verase (code 's') := rfl
    rw [hfeed, conByte_bracket h0]
    exact ⟨rfl, rfl, rfl, rfl⟩

/-- A restore sequence goes to the saved position, if it is on the screen. -/
theorem feed_restore (h0 : con.state = 0) (hrestore : us.map Prod.snd ∈ restoreSequences)
    (hr : con.Recognises us) (hx : con.savedX ≤ con.videoNumColumns)
    (hy : con.savedY < con.videoNumLines) :
    (con.feed us).x = con.savedX ∧ (con.feed us).y = con.savedY := by
  have hgo : ¬(con.videoNumColumns < con.savedX ∨ con.videoNumLines ≤ con.savedY) := by
    rw [not_or, BitVec.not_lt, BitVec.not_le]
    exact ⟨hx, hy⟩
  rcases List.mem_cons.1 hrestore with h | h
  · obtain ⟨v₁, v₂, rfl⟩ := of_map_snd_two h
    have hfeed : con.feed [(v₁, 27), (v₂, code '8')] =
        (con.conByte v₁.verase 27).conByte v₂.verase (code '8') := rfl
    have hr := hr.2.1
    change Console.Recognised (con.conByte v₁.verase 27) v₂ (code '8') at hr
    rw [hfeed]
    rw [conByte_esc h0] at hr ⊢
    have hx : con.x = 56 := ((hr rfl).2 (by decide)).2.1 rfl
    have hne : con.x ≠ 55 := by
      rw [hx]
      decide
    have hrestored : Console.conByte { con with state := 1 } v₂.verase (code '8') =
        Console.restoreCur { con with state := 0 } := by
      rw [conByte_escaped rfl]
      unfold Console.escape
      dsimp only
      rw [if_neg (by decide), if_neg (by decide), if_neg (by decide), if_neg (by decide),
        if_neg (by decide), if_neg hne, if_pos hx]
    rw [hrestored]
    unfold Console.restoreCur Console.gotoxy
    rw [if_neg hgo]
    exact ⟨rfl, rfl⟩
  · obtain ⟨v₁, v₂, v₃, rfl⟩ := of_map_snd_three (List.mem_singleton.1 h)
    have hfeed : con.feed [(v₁, 27), (v₂, code '['), (v₃, code 'u')] =
        ((con.conByte v₁.verase 27).conByte v₂.verase (code '[')).conByte v₃.verase (code 'u') := rfl
    have hrestored : Console.conByte { con with state := 2 } v₃.verase (code 'u') =
        Console.restoreCur { con with
          state := 0, npar := 0, ques := false, par := fun i => if i < npars then 0 else con.par i } :=
      rfl
    rw [hfeed, conByte_bracket h0, hrestored]
    unfold Console.restoreCur Console.gotoxy
    dsimp only
    rw [if_neg hgo]
    exact ⟨rfl, rfl⟩

end Sequences

/-- A terminal that does not echo. -/
def plain : Console.Setting := ⟨127, false⟩

end Linux011.Tty
