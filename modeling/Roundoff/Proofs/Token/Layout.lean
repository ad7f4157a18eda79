import Roundoff.Proofs.Token.Munch

/-! # Lines with other blanks

A line is laid out anew by changing the blanks before its first word, between its words and behind
its last one; where two words have blanks between them they keep some (`Relaid`).  The words then
stay what they are: a longer word would have to reach over a place where the new line has no blank,
and the old one has none there either (`Relaid.longest`).  So the lexer finds the same tokens in
both lines, at other positions (`Relaid.scan`).
-/
namespace Roundoff.Lexer

open Text (isBlank)

/-- There is nothing but blanks. -/
def Blanks (cs : List Char) : Prop :=
  ∀ c ∈ cs, isBlank c = true

instance (cs : List Char) : Decidable (Blanks cs) :=
  List.decidableBAll (fun c => isBlank c = true) cs

/-- **The same words with other blanks.**  The flag tells whether a word stands before the two
texts: if so, blanks at their front may change but not vanish. -/
inductive Relaid : Bool → List Char → List Char → Prop
  | finish {inner : Bool} {g g' : List Char} : Blanks g → Blanks g' → Relaid inner g g'
  | word {inner : Bool} {g g' w cs cs' : List Char} {kind : TokenKind} {text : String} :
      Blanks g → Blanks g' → (inner = true → g ≠ [] → g' ≠ []) → Longest w cs kind text →
      Relaid true cs cs' → Relaid inner (g ++ (w ++ cs)) (g' ++ (w ++ cs'))

variable {inner : Bool} {cs cs' : List Char}

/-! ## The words stay the same -/

theorem Blanks.prefix_eq_nil {g rest v : List Char} (hg : Blanks g) (hne : g ≠ [])
    (hv : v <+: g ++ rest) (hblank : ∀ c ∈ v, isBlank c = false) : v = [] := by
  cases v with
  | nil => rfl
  | cons c v =>
    obtain ⟨d, g, rfl⟩ := List.exists_cons_of_ne_nil hne
    obtain ⟨rfl, -⟩ := List.cons_prefix_cons.1 hv
    have hfalse := hblank c (List.mem_cons_self ..)
    rw [hg c (List.mem_cons_self ..)] at hfalse
    cases hfalse

/-- What stands behind a word without a blank in the new text stands there in the old one. -/
theorem Relaid.isPrefix (h : Relaid inner cs cs') (hinner : inner = true) {v : List Char}
    (hv : v <+: cs') (hblank : ∀ c ∈ v, isBlank c = false) : v <+: cs := by
  induction h generalizing v with
  | @finish inner g g' _ hg' =>
    have hnil : v = [] := by
      by_cases hne : g' = []
      · exact List.prefix_nil.1 (hne ▸ hv)
      · exact hg'.prefix_eq_nil hne (by rwa [List.append_nil]) hblank
    rw [hnil]
    exact List.nil_prefix
  | @word inner g g' w cs cs' kind text _ hg' hgap _ _ ih =>
    by_cases hne : g' = []
    · have hg : g = [] := by
        by_contra hg
        exact hgap hinner hg hne
      subst hne hg
      rw [List.nil_append] at hv ⊢
      rcases List.prefix_or_prefix_of_prefix hv (List.prefix_append w cs') with hshort | ⟨u, rfl⟩
      · exact hshort.trans (List.prefix_append w cs)
      · have hu := ih rfl ((List.prefix_append_right_inj w).1 hv)
          fun c hc => hblank c (List.mem_append_right w hc)
        exact (List.prefix_append_right_inj w).2 hu
    · rw [hg'.prefix_eq_nil hne hv hblank]
      exact List.nil_prefix

/-- **A word that was the longest one stays it.** -/
theorem Relaid.longest (h : Relaid true cs cs') {w : List Char} {kind : TokenKind} {text : String}
    (hw : Longest w cs kind text) : Longest w cs' kind text := by
  refine ⟨hw.word, fun v k t hv hprefix => ?_⟩
  rcases List.prefix_or_prefix_of_prefix hprefix (List.prefix_append w cs') with hshort | ⟨u, rfl⟩
  · exact hshort.length_le
  · have hu := h.isPrefix rfl ((List.prefix_append_right_inj w).1 hprefix)
      fun c hc => hv.not_blank c (List.mem_append_right w hc)
    exact hw.longest _ k t hv ((List.prefix_append_right_inj w).2 hu)

/-! ## The tokens -/

/-- Two tokens of one kind and text. -/
structure SameWord (t t' : Token) : Prop where
  kind_eq : t'.kind = t.kind
  text_eq : t'.text = t.text

theorem scan_blanks_word {g w rest : List Char} {kind : TokenKind} {text : String}
    (hg : Blanks g) (hw : Longest w rest kind text) (p : ℕ) :
    scan p (g ++ (w ++ rest)) =
      (⟨kind, text, (p + g.length : ℕ)⟩ :: (scan (p + g.length + w.length) rest).1,
        (scan (p + g.length + w.length) rest).2) := by
  rw [scan_blanks hg]
  exact scan_munch (.word hw .here)

/-- **The lexer finds the same tokens in both texts**, wherever they stand. -/
theorem Relaid.scan (h : Relaid inner cs cs') (p p' : ℕ) :
    ∃ ts ts', Lexer.scan p cs = (ts, none) ∧ Lexer.scan p' cs' = (ts', none) ∧
      List.Forall₂ SameWord ts ts' := by
  induction h generalizing p p' with
  | finish hg hg' =>
    obtain ⟨k, hk⟩ := scan_end hg p
    obtain ⟨k', hk'⟩ := scan_end hg' p'
    exact ⟨_, _, hk, hk', .cons ⟨rfl, rfl⟩ .nil⟩
  | @word inner g g' w cs cs' kind text hg hg' _ hw hrest ih =>
    obtain ⟨ts, ts', hts, hts', hsame⟩ :=
      ih (p + g.length + w.length) (p' + g'.length + w.length)
    refine ⟨⟨kind, text, (p + g.length : ℕ)⟩ :: ts, ⟨kind, text, (p' + g'.length : ℕ)⟩ :: ts',
      ?_, ?_, .cons ⟨rfl, rfl⟩ hsame⟩
    · rw [scan_blanks_word hg hw, hts]
    · rw [scan_blanks_word hg' (hrest.longest hw), hts']

theorem Relaid.tokenize {line line' : String} (h : Relaid inner line.toList line'.toList) :
    ∃ ts ts', Lexer.tokenize line = .ok ts ∧ Lexer.tokenize line' = .ok ts' ∧
      List.Forall₂ SameWord ts ts' := by
  obtain ⟨ts, ts', hts, hts', hsame⟩ := h.scan 0 0
  exact ⟨ts, ts', by rw [Lexer.tokenize, hts], by rw [Lexer.tokenize, hts'], hsame⟩

/-! ## Every line that is cut -/

theorem Relaid.cons_blank (h : Relaid inner cs cs') {c : Char} (hc : isBlank c = true) :
    Relaid inner (c :: cs) (c :: cs') := by
  have hcons : ∀ {g : List Char}, Blanks g → Blanks (c :: g) :=
    fun hg => List.forall_mem_cons.2 ⟨hc, hg⟩
  cases h with
  | finish hg hg' => exact .finish (hcons hg) (hcons hg')
  | word hg hg' _ hw hrest =>
    rw [← List.cons_append, ← List.cons_append]
    exact .word (hcons hg) (hcons hg') (fun _ _ => List.cons_ne_nil _ _) hw hrest

/-- A text that is cut to its end is one of its own layouts. -/
theorem Munch.relaid {p q : ℕ} {rest : List Char} {ts : List Token} (h : Munch p cs ts q rest)
    (hrest : rest = []) (inner : Bool) : Relaid inner cs cs := by
  induction h generalizing inner with
  | here =>
    subst hrest
    exact .finish (List.forall_mem_nil _) (List.forall_mem_nil _)
  | blank hblank _ ih => exact (ih hrest inner).cons_blank hblank
  | word hw _ ih =>
    exact .word (List.forall_mem_nil _) (List.forall_mem_nil _) (fun _ => id) hw (ih hrest true)

/-- **The lines that can be laid out are those that the lexer does not stop at.** -/
theorem relaid_self_iff {line : String} :
    Relaid false line.toList line.toList ↔ ∃ ts, Lexer.tokenize line = .ok ts := by
  constructor
  · intro h
    obtain ⟨ts, -, hts, -⟩ := h.tokenize
    exact ⟨ts, hts⟩
  · rintro ⟨ts, hts⟩
    obtain ⟨us, q, rest, hmunch, rfl | ⟨c, v, rfl, hblank, hnone⟩⟩ := exists_munch 0 line.toList
    · exact hmunch.relaid rfl false
    · rw [Lexer.tokenize, scan_munch hmunch, scan_stop hblank hnone] at hts
      cases hts

/-- The tokens stand one behind the other. -/
theorem Cut.pairwise {p : ℕ} {ts : List Token} (h : Cut p cs ts) :
    ts.Pairwise fun a b => a.position < b.position := by
  induction h with
  | finish => exact List.pairwise_singleton _ _
  | blank _ _ ih => exact ih
  | @word p w cs kind text ts hw hcut ih =>
    refine .cons (fun t ht => ?_) ih
    have hlength := List.length_pos_iff.2 hw.ne_nil
    have hposition := (hcut.position_of_mem ht).1
    dsimp only
    omega

/-- A cut that starts with the end of the input has no word. -/
theorem Cut.eq_finish {p : ℕ} {t : Token} {ts : List Token} (h : Cut p cs (t :: ts))
    (hkind : t.kind = .endOfInput) : ∃ q, t :: ts = [.finish q] := by
  generalize heq : t :: ts = us at h
  induction h with
  | finish => exact ⟨_, rfl⟩
  | blank _ _ ih => exact ih heq
  | word hw _ _ =>
    cases heq
    exact absurd hkind hw.kind_ne

end Roundoff.Lexer
