/-
Idl/Proofs/LineEndings/Source.lean

Sources with carriage returns.

With carriage returns in front of the newlines of all sources these are the sources, respelled: positions
move, and there are carriage returns in comments and in literals between back quotes.  So a compilation
without errors stays one, and its representation is the same but for the carriage returns in these two
kinds of text; where neither spans lines, it is the same (`compile_crlf`).  A literal is represented by its
spelling and a comment by its text, so what spans lines is indeed represented otherwise
(`compile_crlf_spanning`).
-/
import Idl.Proofs.LineEndings.Places
import Mathlib.Algebra.Order.BigOperators.Group.List

namespace Idl

/-! ### Respelled tokens -/

section Tokens

variable {lineOf lineOf' : Pos → Nat} {pos : Pos → Pos} {hzero : pos 0 = 0} {hmono : StrictMono pos}
  {f : List Char → List Char} {hf : KeepsRest f} {t t' : Token}

/-- With carriage returns a text starts with a slash and a star if it did. -/
theorem take_two_crlf (cs : List Char) : (crlf cs).take 2 = ['/', '*'] ↔ cs.take 2 = ['/', '*'] := by
  have htwo (c : Char) (ds : List Char) :
      (c :: ds).take 2 = ['/', '*'] ↔ c = '/' ∧ ds.head? = some '*' := by
    cases ds with
    | nil => simp
    | cons d ds => simp
  cases cs with
  | nil => exact Iff.rfl
  | cons c cs =>
    by_cases hc : c = '\n'
    · subst hc
      rw [crlf_newline, htwo, htwo]
      exact iff_of_false (by simp) (by simp)
    · rw [crlf_cons hc, htwo, htwo, head?_crlf (by decide) (by decide)]

/-- A text in which nothing is changed is spelled as it was. -/
theorem text_returns_of_eq (happend : ∀ cs ds, f (cs ++ ds) = f cs ++ f ds)
    (hquote : f [backQuote] = [backQuote]) {text : String} (h : onChars f text = text)
    (kind : TokenKind) : (Respelling.returns pos hzero hmono f hf).text kind text = text := by
  cases kind with
  | comment => exact h
  | string =>
    show onRaw f text = text
    cases hbody : rawBody? text with
    | none => exact onRaw_of_none hbody
    | some body => rw [onRaw_eq_onChars happend hquote (by rw [hbody]; rfl), h]
  | _ => rfl

/-- A token of the source with carriage returns is the token, respelled. -/
theorem Token.Returned.readsAs (h : t.Returned pos t')
    (hl : ∀ p, lineOf' (pos p) = lineOf p) :
    t.ReadsAs (.returns pos hzero hmono crlf keepsRest_crlf) lineOf lineOf' t' where
  kind := h.kind
  pos := h.pos
  stop := h.stop
  text := by
    have hplain (hline : '\n' ∉ t.text.toList) : onChars crlf t.text = t.text := by
      rw [← String.toList_inj, toList_onChars, crlf_eq_self hline]
    rw [h.text]
    rcases h.line with hk | ⟨hk, hraw⟩ | hline
    · rw [hk]
      rfl
    · rw [hk]
      exact (onRaw_eq_onChars crlf_append rfl hraw).symm
    · rw [text_returns_of_eq crlf_append rfl (hplain hline), hplain hline]
  ends := by
    intro _
    have htext : (onChars crlf t.text).toList = crlf t.text.toList := toList_onChars crlf t.text
    show lineOf' (pos t.pos) + (if (onChars crlf t.text).toList.take 2 = ['/', '*'] then
      (onChars crlf t.text).toList.count '\n' else 0) = _
    rw [hl, htext, count_crlf]
    simp only [take_two_crlf]
    rfl

/-- A token whose text does not change is the token, moved. -/
theorem Token.readsAs_of_text (happend : ∀ cs ds, f (cs ++ ds) = f cs ++ f ds)
    (hquote : f [backQuote] = [backQuote]) (htext : onChars f t.text = t.text)
    (hl : ∀ p, lineOf' (pos p) = lineOf p) (hkind : t'.kind = t.kind) (hsame : t'.text = t.text)
    (hpos : t'.pos = pos t.pos) (hstop : t.kind ≠ .comment → t'.span.stop = pos t.span.stop) :
    t.ReadsAs (.returns pos hzero hmono f hf) lineOf lineOf' t' where
  kind := hkind
  pos := hpos
  stop := hstop
  text := by rw [hsame, text_returns_of_eq happend hquote htext]
  ends := by
    intro _
    show lineOf' (pos t.pos) + (if (onChars f t.text).toList.take 2 = ['/', '*'] then
      (onChars f t.text).toList.count '\n' else 0) = _
    rw [hl, htext]
    rfl

end Tokens

/-! ### Respelled sources -/

namespace Source

variable {ρ : Respelling} {base base' : Pos}

theorem extent_crlf (s : Source) :
    s.crlf.extent = s.extent + (bytesOf s.text).count newlineByte := by
  unfold extent
  rw [← s.crlf.length_bytesOf, bytesOf_crlf, (crlfBytes_counts _).1, s.length_bytesOf]
  exact Nat.add_right_comm ..

/-- The tokens that come of the tokens of a source, when carriage returns are put into it, are the
tokens, respelled. -/
def Renders (ρ : Respelling) (s : Source) : Prop :=
  ∀ (base : Pos) (lineOf lineOf' : Pos → Nat), base ≠ 0 → (∀ p, lineOf' (ρ.pos p) = lineOf p) →
    ∀ u ∈ (scanSource base s.text).tokens, ∀ t, u.token.Returned ρ.pos t →
      u.token.ReadsAs ρ lineOf lineOf' t

/-- A source with carriage returns is the source, respelled. -/
theorem readsAs_crlf {s : Source} (hcr : '\r' ∉ s.text.toList) (hrenders : Renders ρ s)
    (hbase : base ≠ 0) (hbase' : base' ≠ 0)
    (h : StretchesBytes ρ.pos base base' (bytesOf s.text)) : s.ReadsAs ρ base base' s.crlf where
  name := rfl
  stop := by
    have hstop := h _ (Nat.le_refl _)
    have hextent := s.extent_crlf
    unfold extent at hextent
    rw [List.take_length, s.length_bytesOf] at hstop
    rw [hstop]
    unfold Pos
    omega
  lineOf := s.lineOf_stretched hbase hbase' ρ.strictMono h
  tokens := by
    intro hclean
    have htext : s.crlf.text.toList = Idl.crlf s.text.toList := toList_onChars Idl.crlf s.text
    have hchars : Stretches ρ.pos base base' s.text.toList := by
      rw [bytesOf_eq] at h
      exact h.chars
    have htokens := tokensFrom_crlf hcr hchars (List.flatMap_eq_nil_iff.1 hclean)
    rw [← htext] at htokens
    have hl := s.lineOf_stretched hbase hbase' ρ.strictMono h
    refine ⟨List.flatMap_eq_nil_iff.2 ((List.forall₂_and_left _ _).1 htokens.flip).1, ?_⟩
    exact ((List.forall₂_and_left _ _).2 ⟨fun _ hu => hu, htokens⟩).imp fun u t ht =>
      hrenders base _ _ hbase hl u ht.1 _ ht.2.2

/-- The bytes of sources that are read one behind the other; where a source ends there is a position
more. -/
def bytesInTurn (ss : List Source) : List UInt8 := ss.flatMap fun s => bytesOf s.text ++ [0]

/-- Sources with carriage returns are the sources, respelled. -/
theorem readInTurn_crlf {before : List UInt8} {ss : List Source}
    (hpos : ρ.pos = stretch (before ++ bytesInTurn ss))
    (hss : ∀ s ∈ ss, '\r' ∉ s.text.toList ∧ Renders ρ s) :
    ReadInTurn ρ (1 + before.length) (1 + before.length + before.count newlineByte) ss
      (ss.map crlf) := by
  induction ss generalizing before with
  | nil => exact .nil
  | cons s ss ih =>
    obtain ⟨⟨hcr, hrenders⟩, hss⟩ := List.forall_mem_cons.1 hss
    have hbytes : before ++ bytesInTurn (s :: ss) =
        before ++ (bytesOf s.text ++ ([0] ++ bytesInTurn ss)) := by
      show before ++ (bytesOf s.text ++ [0] ++ bytesInTurn ss) = _
      rw [List.append_assoc]
    -- the source stands in the middle of the bytes of all sources
    have hplace := stretch_middle before (bytesOf s.text) ([0] ++ bytesInTurn ss)
    rw [← hbytes, ← hpos] at hplace
    have hnext : ρ.pos = stretch (before ++ bytesOf s.text ++ [0] ++ bytesInTurn ss) := by
      rw [hpos, hbytes]
      simp only [List.append_assoc]
    have hrest := ih hnext hss
    have hextent : s.extent = (bytesOf s.text).length + 1 := congrArg (· + 1) s.length_bytesOf.symm
    have hbase : 1 + (before ++ bytesOf s.text ++ [0]).length = 1 + before.length + s.extent := by
      simp only [List.length_append, List.length_singleton, hextent]
      omega
    have hbase' : 1 + before.length + s.extent +
        (before ++ bytesOf s.text ++ [0]).count newlineByte =
          1 + before.length + before.count newlineByte + s.crlf.extent := by
      have hzero : ([0] : List UInt8).count newlineByte = 0 := rfl
      rw [s.extent_crlf, List.count_append, List.count_append, hzero]
      omega
    rw [hbase, hbase'] at hrest
    refine .cons (s.readsAs_crlf hcr hrenders ?_ ?_ hplace) hrest
    · unfold Pos
      omega
    · unfold Pos
      omega

/-- Sources without carriage returns have the same tokens when these are dropped. -/
theorem readInTurn_stripped {ss : List Source} (hss : ∀ s ∈ ss, '\r' ∉ s.text.toList) (base : Pos) :
    ReadInTurn (.returns id rfl strictMono_id stripped keepsRest_stripped) base base ss ss := by
  have happend (cs ds : List Char) : stripped (cs ++ ds) = stripped cs ++ stripped ds :=
    List.filter_append ..
  induction ss generalizing base with
  | nil => exact .nil
  | cons s ss ih =>
    obtain ⟨hcr, hss⟩ := List.forall_mem_cons.1 hss
    refine .cons ⟨rfl, rfl, fun p => rfl, fun hclean => ⟨hclean, ?_⟩⟩ (ih hss _)
    refine List.forall₂_same.2 fun t ht => ?_
    have htext : onChars stripped t.token.text = t.token.text := by
      rw [← String.toList_inj, toList_onChars, stripped_eq_self fun h => hcr (mem_of_mem_text ht h)]
    exact Token.readsAs_of_text happend rfl htext (fun _ => rfl) rfl rfl rfl fun _ => rfl

end Source

/-! ### Compilations -/

section Compilation

variable {sources : List Source}

/-- The sources, respelled by what `f` makes of comments and of literals between back quotes. -/
def Respelling.stretched (sources : List Source) (f : List Char → List Char) (hf : KeepsRest f) :
    Respelling :=
  .returns (stretch (Source.bytesInTurn sources)) rfl (stretch_strictMono _) f hf

/-- In comments and in literals between back quotes there are carriage returns. -/
theorem Source.renders_returned (s : Source) :
    s.Renders (.stretched sources Idl.crlf keepsRest_crlf) :=
  fun _ _ _ _ hl _ _ _ ht => ht.readsAs hl

/-- Where no token spans lines the tokens only move. -/
theorem renders_moved {s : Source}
    (hline : ∀ t ∈ (scanSource 1 s.text).tokens, '\n' ∉ t.token.text.toList) :
    s.Renders (.stretched sources id keepsRest_id) := by
  intro base lineOf lineOf' hbase hl u hu t ht
  -- a token says the same wherever its source stands
  have huline : '\n' ∉ u.token.text.toList := by
    have hplace : 1 + (base - 1) = base := by
      unfold Pos at *
      omega
    have hmoved := tokensFrom_placed ⟨base - 1, 0, {}⟩ Nat.one_ne_zero s.text.toList
    rw [hplace] at hmoved
    have hu : u ∈ tokensFrom base s.text.toList := hu
    rw [hmoved] at hu
    obtain ⟨v, hv, rfl⟩ := List.mem_map.1 hu
    exact hline v hv
  have hsame : t.text = u.token.text := by
    rw [ht.text, ← String.toList_inj, toList_onChars, crlf_eq_self huline]
  exact Token.readsAs_of_text (fun _ _ => rfl) rfl String.ofList_toList hl ht.kind hsame ht.pos ht.stop

/-- **Carriage returns in front of newlines.**  If sources without carriage returns are compiled without
errors, then so are the sources with a carriage return in front of every newline, as long as there are
positions for the longer sources.  The representation is the same once carriage returns are dropped from
comments and from literals between back quotes, and it is the very same where no token spans lines. -/
theorem compile_crlf (hcr : ∀ s ∈ sources, '\r' ∉ s.text.toList)
    (hok : (compile sources).hasErrors = false)
    (hroom : 1 + ((sources.map Source.crlf).map Source.extent).sum < positionBound) :
    (compile (sources.map Source.crlf)).hasErrors = false ∧
      (compile (sources.map Source.crlf)).ir.retext .stripped = (compile sources).ir ∧
      ((∀ s ∈ sources, ∀ t ∈ (scanSource 1 s.text).tokens, '\n' ∉ t.token.text.toList) →
        (compile (sources.map Source.crlf)).ir = (compile sources).ir) := by
  have hin {f : List Char → List Char} {hf : KeepsRest f}
      (hrenders : ∀ s ∈ sources, s.Renders (.stretched sources f hf)) :
      Source.ReadInTurn (.stretched sources f hf) 1 1 sources (sources.map Source.crlf) := by
    have hall : ∀ s ∈ sources, '\r' ∉ s.text.toList ∧ s.Renders (.stretched sources f hf) :=
      fun s hs => ⟨hcr s hs, hrenders s hs⟩
    have hpos : (Respelling.stretched sources f hf).pos =
        stretch ([] ++ Source.bytesInTurn sources) := rfl
    exact Source.readInTurn_crlf hpos hall
  have hreturned := hin fun s hs => (Source.renders_returned s : s.Renders (.stretched sources crlf _))
  -- read with their carriage returns dropped, the sources themselves are the same
  have hroom' : 1 + (sources.map Source.extent).sum < positionBound := by
    have hle : (sources.map Source.extent).sum ≤ ((sources.map Source.crlf).map Source.extent).sum := by
      rw [List.map_map]
      exact List.sum_le_sum fun s _ =>
        (Nat.le_add_right _ _).trans_eq s.extent_crlf.symm
    exact Nat.lt_of_le_of_lt (Nat.add_le_add_left hle 1) hroom
  have hself := ir_respelled (Source.readInTurn_stripped hcr 1) hok hroom' reconciles_none_stripped
  rw [Ir.retext_none] at hself
  refine ⟨hasErrors_respelled hreturned hok hroom, ?_, fun hline => ?_⟩
  · exact (ir_respelled hreturned hok hroom reconciles_stripped).trans hself.symm
  · have hmoved := hin fun s hs => renders_moved (hline s hs)
    have hir := ir_respelled hmoved hok hroom reconciles_none
    rwa [Ir.retext_none, Ir.retext_none] at hir

end Compilation

/-- A constant and a bean, with comments, in two files of one package. -/
def commented : List Source := [
  ⟨"a.mid", "package p\n\n// The size.\nconst N = 4 // in words\n"⟩,
  ⟨"b.mid", "package p\nstruct S \x7b\n  array<int, N> xs // all of them\n\x7d\n"⟩]

theorem compile_crlf_commented :
    (compile (commented.map Source.crlf)).hasErrors = false ∧
      (compile (commented.map Source.crlf)).ir.retext .stripped = (compile commented).ir ∧
      (compile (commented.map Source.crlf)).ir = (compile commented).ir ∧
      (compile commented).ir.packages.map (·.beans.map (·.name)) = [["S"]] ∧
      commented.map Source.crlf ≠ commented := by
  have hcr : ∀ s ∈ commented, '\r' ∉ s.text.toList := by decide +kernel
  have hok : (compile commented).hasErrors = false := by decide +kernel
  have hroom : 1 + ((commented.map Source.crlf).map Source.extent).sum < positionBound := by
    decide +kernel
  have hline : ∀ s ∈ commented, ∀ t ∈ (scanSource 1 s.text).tokens,
      '\n' ∉ t.token.text.toList := by decide +kernel
  obtain ⟨hclean, hstripped, hsame⟩ := compile_crlf hcr hok hroom
  exact ⟨hclean, hstripped, hsame hline, by decide +kernel, by decide +kernel⟩

/-- A literal that spans lines. -/
def spanningLiteral : List Source := [⟨"a.mid", "package p\nconst A = \x60a\nb\x60\n"⟩]

/-- A comment that spans lines. -/
def spanningComment : List Source := [⟨"a.mid", "package p\nconst A = 1 /* a\nb */\n"⟩]

/-- A literal that spans lines is represented with its carriage returns, and so is a comment. -/
theorem compile_crlf_spanning :
    ((∀ s ∈ spanningLiteral, '\r' ∉ s.text.toList) ∧
      (compile spanningLiteral).hasErrors = false ∧
      (compile (spanningLiteral.map Source.crlf)).ir ≠ (compile spanningLiteral).ir) ∧
    (∀ s ∈ spanningComment, '\r' ∉ s.text.toList) ∧
      (compile spanningComment).hasErrors = false ∧
      (compile (spanningComment.map Source.crlf)).ir ≠ (compile spanningComment).ir := by
  have hvalue : (compile spanningLiteral).ir.packages.flatMap (·.consts.map (·.value.text)) =
      ["\x60a\nb\x60"] := by decide +kernel
  have hvalue' : (compile (spanningLiteral.map Source.crlf)).ir.packages.flatMap
      (·.consts.map (·.value.text)) = ["\x60a\r\nb\x60"] := by decide +kernel
  have hcomment : (compile spanningComment).ir.packages.flatMap (·.consts.map (·.comment)) =
      ["/* a\nb */"] := by decide +kernel
  have hcomment' : (compile (spanningComment.map Source.crlf)).ir.packages.flatMap
      (·.consts.map (·.comment)) = ["/* a\r\nb */"] := by decide +kernel
  refine ⟨⟨by decide +kernel, by decide +kernel, fun h => ?_⟩,
    by decide +kernel, by decide +kernel, fun h => ?_⟩
  · rw [h, hvalue] at hvalue'
    exact absurd hvalue' (by decide)
  · rw [h, hcomment] at hcomment'
    exact absurd hcomment' (by decide)

end Idl
