import Cerverus.Request

/-!
# The grammar of a request

A header block is a request line and header lines, each followed by `CRLF`. A line may have a
lone `CR` or `LF` in it, but no line end.
-/
namespace Cerverus.Http

def IsLine (line : Bytes) : Prop := ¬ crlf <:+: line

instance : DecidablePred IsLine := fun line => inferInstanceAs (Decidable ¬ crlf <:+: line)

/-- `METHOD SP URI SP HTTP/1.1`. -/
def RequestLine (line : Bytes) (method : HttpMethod) (uri : Bytes) : Prop :=
  ∃ name, (name, method) ∈ methodTable ∧ uri ≠ [] ∧ 32 ∉ uri ∧
    line = name ++ 32 :: (uri ++ 32 :: httpVersion1p1Literal)

/-- `v` is what is left of `s` without the spaces and tabs at both ends. -/
structure IsTrim (s v : Bytes) : Prop where
  around : ∃ l r, s = l ++ v ++ r ∧ (∀ c ∈ l, isBlank c = true) ∧ ∀ c ∈ r, isBlank c = true
  first : ∀ c ∈ v.head?, isBlank c = false
  last : ∀ c ∈ v.getLast?, isBlank c = false

/-- A name, `:` and a value, with the first `:` ending the name. -/
def HeaderLine (line : Bytes) (hdr : Header) : Prop :=
  hdr.name ≠ [] ∧ 58 ∉ hdr.name ∧ ∃ value, line = hdr.name ++ 58 :: value ∧ IsTrim value hdr.value

def terminated (lines : List Bytes) : Bytes := (lines.map (· ++ crlf)).flatten

def IsRequest (block : Bytes) (method : HttpMethod) (uri : Bytes) (headers : List Header) : Prop :=
  ∃ line lines, IsLine line ∧ (∀ l ∈ lines, IsLine l) ∧ block = terminated (line :: lines) ∧
    RequestLine line method uri ∧ List.Forall₂ HeaderLine lines headers

/-! ## Lines -/

section
variable {line rest s : Bytes} {lines : List Bytes} {c : UInt8} {i : ℕ}

theorem terminated_cons : terminated (line :: lines) = line ++ (crlf ++ terminated lines) := by
  simp [terminated]

theorem memchr_eq_some : memchr s c = some i ↔ ∃ l r, s = l ++ c :: r ∧ c ∉ l ∧ l.length = i := by
  constructor
  · intro h
    obtain ⟨hi, hc, hmin⟩ := List.findIdx?_eq_some_iff_getElem.mp h
    have hmid : s = s.take i ++ s[i] :: s.drop (i + 1) := by
      rw [List.getElem_cons_drop, List.take_append_drop]
    rw [beq_iff_eq.mp hc] at hmid
    refine ⟨s.take i, s.drop (i + 1), hmid, fun hmem => ?_, List.length_take_of_le hi.le⟩
    obtain ⟨j, hj, heq⟩ := List.mem_take_iff_getElem.mp hmem
    exact hmin j (by omega) (by simpa using heq)
  · intro hex
    obtain ⟨l, r, rfl, hc, rfl⟩ := hex
    exact memchr_of_notMem hc

/-- The first line end after a line is the one that ends it: the two cannot overlap. -/
theorem memmem_line (h : IsLine line) (rest : Bytes) :
    memmem crlf (line ++ (crlf ++ rest)) = some line.length := by
  induction line with
  | nil => simp [crlf, memmem]
  | cons c line ih =>
    have htail : IsLine line := fun hin => h (hin.trans (List.suffix_cons c line).isInfix)
    have hno : crlf.isPrefixOf (c :: (line ++ (crlf ++ rest))) = false := by
      cases line with
      | nil => simp [crlf, List.isPrefixOf]
      | cons d line =>
        by_contra hpre
        simp only [crlf, List.cons_append, List.isPrefixOf, Bool.and_true, Bool.not_eq_false,
          Bool.and_eq_true, beq_iff_eq] at hpre
        obtain ⟨hc, hd⟩ := hpre
        subst hc hd
        exact h ⟨[], line, rfl⟩
    rw [List.cons_append, memmem, hno, if_neg Bool.false_ne_true, ih htail]
    rfl

theorem memmem_crlf : memmem crlf s = some i ↔
    ∃ line rest, s = line ++ (crlf ++ rest) ∧ IsLine line ∧ line.length = i := by
  constructor
  · intro h
    obtain ⟨⟨rest, hrest⟩, hle, hmin⟩ := memmem_eq_some.mp h
    refine ⟨s.take i, rest, ?_, fun hin => ?_, List.length_take_of_le hle⟩
    · rw [hrest, List.take_append_drop]
    · obtain ⟨l, r, hlr⟩ := hin
      have hlen := congrArg List.length hlr
      simp only [List.length_append, List.length_take, crlf, List.length_cons,
        List.length_nil] at hlen
      have hs : s = l ++ (crlf ++ r ++ s.drop i) := by
        rw [← List.append_assoc, ← List.append_assoc, hlr, List.take_append_drop]
      refine hmin l.length (by omega) ?_
      rw [hs, List.drop_left, List.append_assoc]
      exact List.prefix_append _ _
  · intro hex
    obtain ⟨line, rest, rfl, hline, rfl⟩ := hex
    exact memmem_line hline rest

theorem crlf_suffix_rest (h : crlf <:+ line ++ (crlf ++ rest)) : rest = [] ∨ crlf <:+ rest := by
  rcases rest with _ | ⟨a, _ | ⟨b, rest⟩⟩
  · exact Or.inl rfl
  · -- the last two bytes would be `LF` and the only byte of the rest
    obtain ⟨l, hl⟩ := h
    have hrev := congrArg List.reverse hl
    simp [crlf] at hrev
  · refine Or.inr (List.suffix_of_suffix_length_le h ?_ (by simp [crlf]))
    rw [← List.append_assoc]
    exact List.suffix_append _ _

theorem exists_lines (s : Bytes) (h : s = [] ∨ crlf <:+ s) :
    ∃ lines, (∀ l ∈ lines, IsLine l) ∧ s = terminated lines := by
  induction hn : s.length using Nat.strong_induction_on generalizing s with
  | _ n ih =>
    rcases h with rfl | h
    · exact ⟨[], by simp, rfl⟩
    · have hend : crlf <+: s.drop (s.length - crlf.length) :=
        List.suffix_iff_eq_drop.mp h ▸ List.prefix_rfl
      obtain ⟨i, hi⟩ := memmem_isSome hend
      obtain ⟨line, rest, rfl, hline, _⟩ := memmem_crlf.mp hi
      have hlt : rest.length < n := by
        rw [← hn]
        simp [crlf]
        omega
      obtain ⟨lines, hlines, hrest⟩ := ih _ hlt rest (crlf_suffix_rest h) rfl
      refine ⟨line :: lines, ?_, by rw [terminated_cons, hrest]⟩
      exact List.forall_mem_cons.mpr ⟨hline, hlines⟩

end

/-! ## The request line -/

theorem parseHttpMethod_eq_some {name : Bytes} {method : HttpMethod} :
    parseHttpMethod name = some method ↔ (name, method) ∈ methodTable := by
  constructor
  · intro h
    obtain ⟨⟨name', method'⟩, hfind, rfl⟩ := Option.map_eq_some_iff.mp h
    have hname := List.find?_some hfind
    rw [← beq_iff_eq.mp hname]
    exact List.mem_of_find?_eq_some hfind
  · intro h
    have hall : ∀ e ∈ methodTable, parseHttpMethod e.1 = some e.2 := by decide
    exact hall _ h

theorem method_ne_nil {name : Bytes} {method : HttpMethod} (h : (name, method) ∈ methodTable) :
    name ≠ [] ∧ 32 ∉ name := by
  have hall : ∀ e ∈ methodTable, e.1 ≠ [] ∧ 32 ∉ e.1 := by decide
  exact hall _ h

section
variable {line uri : Bytes} {method : HttpMethod} {version : HttpVersion}

theorem parseStatusLine_sound (h : parseStatusLine line = some (method, uri, version)) :
    RequestLine line method uri := by
  obtain ⟨sp1, hsp1, h⟩ := Option.bind_eq_some_iff.mp h
  obtain ⟨sp2, hsp2, h⟩ := Option.bind_eq_some_iff.mp h
  obtain ⟨name, r, rfl, hname, rfl⟩ := memchr_eq_some.mp hsp1
  have hrest : (name ++ 32 :: r).drop (name.length + 1) = r := by simp
  rw [hrest] at hsp2 h
  obtain ⟨uri', v, rfl, huri', rfl⟩ := memchr_eq_some.mp hsp2
  have hversion : (uri' ++ 32 :: v).drop (uri'.length + 1) = v := by simp
  simp only [List.take_left, hversion] at h
  split_ifs at h with hempty hfourth
  obtain ⟨method', hmethod, h⟩ := Option.bind_eq_some_iff.mp h
  obtain ⟨version', hv, h⟩ := Option.bind_eq_some_iff.mp h
  cases h
  rw [parseHttpVersion] at hv
  split_ifs at hv with hliteral
  rw [not_or] at hempty
  exact ⟨name, parseHttpMethod_eq_some.mp hmethod, hempty.2, huri', by rw [hliteral]⟩

theorem parseStatusLine_complete (h : RequestLine line method uri) :
    parseStatusLine line = some (method, uri, .v1p1) := by
  obtain ⟨name, hmem, hne, huri, rfl⟩ := h
  obtain ⟨hname, hsp⟩ := method_ne_nil hmem
  have hsp2 : memchr (uri ++ 32 :: httpVersion1p1Literal) 32 = some uri.length :=
    memchr_of_notMem huri
  have hfourth : (memchr httpVersion1p1Literal 32).isSome = false := by decide
  have hmethod := parseHttpMethod_eq_some.mpr hmem
  have hdrop1 : (name ++ 32 :: (uri ++ 32 :: httpVersion1p1Literal)).drop (name.length + 1) =
      uri ++ 32 :: httpVersion1p1Literal := by simp
  have hdrop2 : (uri ++ 32 :: httpVersion1p1Literal).drop (uri.length + 1) =
      httpVersion1p1Literal := by simp
  rw [parseStatusLine, memchr_of_notMem hsp]
  simp only [Option.bind_eq_bind, Option.bind_some, hdrop1, hsp2, hdrop2, List.take_left, hname,
    hne, or_self, if_false, hfourth, Bool.false_eq_true, hmethod, parseHttpVersion, if_true]

theorem parseStatusLine_eq_some :
    parseStatusLine line = some (method, uri, version) ↔ RequestLine line method uri := by
  refine ⟨parseStatusLine_sound, fun h => ?_⟩
  cases version
  exact parseStatusLine_complete h

end

/-! ## Header lines -/

section
variable {s v line : Bytes} {hdr : Header}

theorem dropWhile_blank {l : Bytes} (hl : ∀ c ∈ l, isBlank c = true)
    (hv : ∀ c ∈ v.head?, isBlank c = false) : (l ++ v).dropWhile isBlank = v := by
  rw [List.dropWhile_append_of_pos hl]
  cases v with
  | nil => rfl
  | cons c v => exact List.dropWhile_cons_of_neg (by simp [hv c rfl])

theorem head?_dropWhile_blank (s : Bytes) :
    ∀ c ∈ (s.dropWhile isBlank).head?, isBlank c = false := by
  intro c hc
  have := List.head?_dropWhile_not isBlank s
  rw [Option.mem_def.mp hc] at this
  simpa using this

theorem trim_eq (h : IsTrim s v) : trim s = v := by
  obtain ⟨⟨l, r, rfl, hl, hr⟩, hfirst, hlast⟩ := h
  have hleft : (l ++ v ++ r).dropWhile isBlank = if v = [] then [] else v ++ r := by
    split_ifs with hv
    · subst hv
      rw [List.append_nil, ← List.append_nil (l ++ r)]
      refine dropWhile_blank (fun c hc => ?_) (by simp)
      exact (List.mem_append.mp hc).elim (hl c) (hr c)
    · rw [List.append_assoc]
      refine dropWhile_blank hl fun c hc => hfirst c ?_
      rwa [List.head?_append_of_ne_nil _ hv] at hc
  rw [trim, hleft]
  split_ifs with hv
  · rw [hv]
    rfl
  · rw [List.reverse_append, dropWhile_blank (fun c hc => hr c (List.mem_reverse.mp hc)),
      List.reverse_reverse]
    rwa [List.head?_reverse]

theorem isTrim_trim (s : Bytes) : IsTrim s (trim s) := by
  have hl : s = s.takeWhile isBlank ++ s.dropWhile isBlank := List.takeWhile_append_dropWhile.symm
  have hr : s.dropWhile isBlank =
      trim s ++ ((s.dropWhile isBlank).reverse.takeWhile isBlank).reverse := by
    rw [trim, ← List.reverse_append, List.takeWhile_append_dropWhile, List.reverse_reverse]
  refine ⟨⟨s.takeWhile isBlank, ((s.dropWhile isBlank).reverse.takeWhile isBlank).reverse, ?_,
    fun c hc => List.mem_takeWhile_imp hc, fun c hc => ?_⟩, fun c hc => ?_, fun c hc => ?_⟩
  · rw [List.append_assoc, ← hr, ← hl]
  · exact List.mem_takeWhile_imp (List.mem_reverse.mp hc)
  · refine head?_dropWhile_blank s c ?_
    rw [hr, List.head?_append, Option.mem_def.mp hc]
    rfl
  · rw [trim, List.getLast?_reverse] at hc
    exact head?_dropWhile_blank _ c hc

theorem parseHeaderLine_eq_some : parseHeaderLine line = some hdr ↔ HeaderLine line hdr := by
  have hdrop (name value : Bytes) : (name ++ 58 :: value).drop (name.length + 1) = value := by simp
  constructor
  · intro h
    rw [parseHeaderLine] at h
    rcases hcolon : memchr line 58 with _ | colon
    · simp [hcolon] at h
    · obtain ⟨name, value, rfl, hname, rfl⟩ := memchr_eq_some.mp hcolon
      rcases hlen : name.length with _ | n
      · simp [hcolon, hlen] at h
      · simp only [hcolon, hlen, Option.some.injEq] at h
        rw [← hlen, hdrop, List.take_left] at h
        subst h
        refine ⟨?_, hname, value, rfl, isTrim_trim value⟩
        exact List.ne_nil_of_length_eq_add_one hlen
  · intro hex
    obtain ⟨hne, hname, value, rfl, htrim⟩ := hex
    obtain ⟨n, hlen⟩ := Nat.exists_eq_add_one_of_ne_zero (mt List.length_eq_zero_iff.mp hne)
    simp only [parseHeaderLine, memchr_of_notMem hname, hlen]
    rw [← hlen, hdrop, List.take_left, trim_eq htrim]

theorem parseHeaders_terminated {lines : List Bytes} {hdrs : List Header}
    (h : ∀ l ∈ lines, IsLine l) :
    parseHeaders (terminated lines) = some hdrs ↔ List.Forall₂ HeaderLine lines hdrs := by
  induction lines generalizing hdrs with
  | nil =>
    rw [parseHeaders]
    simp [terminated, eq_comm]
  | cons line lines ih =>
    obtain ⟨hline, hlines⟩ := List.forall_mem_cons.mp h
    have hne : terminated (line :: lines) ≠ [] := by simp [terminated, crlf]
    have hdrop : (terminated (line :: lines)).drop (line.length + 2) = terminated lines := by
      simp [terminated_cons, crlf]
    have htake : (terminated (line :: lines)).take line.length = line := by
      simp [terminated_cons]
    have heol : memmem crlf (terminated (line :: lines)) = some line.length := by
      rw [terminated_cons]
      exact memmem_line hline _
    rw [parseHeaders, dif_neg hne]
    simp only [heol, Option.getD_some, htake, hdrop, List.forall₂_cons_left_iff]
    constructor
    · intro hparse
      rcases hhdr : parseHeaderLine line with _ | hdr
      · simp [hhdr] at hparse
      · simp only [hhdr, Option.map_eq_some_iff] at hparse
        obtain ⟨rest, hrest, rfl⟩ := hparse
        exact ⟨hdr, rest, parseHeaderLine_eq_some.mp hhdr, (ih hlines).mp hrest, rfl⟩
    · intro hex
      obtain ⟨hdr, rest, hhdr, hrest, rfl⟩ := hex
      simp [parseHeaderLine_eq_some.mpr hhdr, (ih hlines).mpr hrest]

end

/-! ## The header block -/

section
variable {block uri : Bytes} {method : HttpMethod} {version : HttpVersion} {headers : List Header}

/-- The header block is accepted exactly when it is in the grammar, and then with the parts it
has there. -/
theorem parseHeaderBlock_eq_some (hend : crlf <:+ block) :
    parseHeaderBlock block = some ⟨method, uri, version, headers⟩ ↔
      IsRequest block method uri headers := by
  constructor
  · intro h
    obtain ⟨i, hi, h⟩ := Option.bind_eq_some_iff.mp h
    obtain ⟨⟨method', uri', version'⟩, hstatus, h⟩ := Option.bind_eq_some_iff.mp h
    obtain ⟨headers', hheaders, h⟩ := Option.bind_eq_some_iff.mp h
    cases h
    obtain ⟨line, rest, rfl, hline, rfl⟩ := memmem_crlf.mp hi
    obtain ⟨lines, hlines, rfl⟩ := exists_lines rest (crlf_suffix_rest hend)
    have hdrop : (line ++ (crlf ++ terminated lines)).drop (line.length + 2) =
        terminated lines := by simp [crlf]
    rw [List.take_left] at hstatus
    rw [hdrop] at hheaders
    exact ⟨line, lines, hline, hlines, terminated_cons.symm, parseStatusLine_eq_some.mp hstatus,
      (parseHeaders_terminated hlines).mp hheaders⟩
  · intro hex
    obtain ⟨line, lines, hline, hlines, rfl, hrequest, hheaders⟩ := hex
    have hdrop : (line ++ (crlf ++ terminated lines)).drop (line.length + 2) =
        terminated lines := by simp [crlf]
    have hstatus : parseStatusLine line = some (method, uri, version) :=
      parseStatusLine_eq_some.mpr hrequest
    have hhdrs := (parseHeaders_terminated hlines).mpr hheaders
    simp only [parseHeaderBlock, terminated_cons, memmem_line hline, Option.bind_eq_bind,
      Option.bind_some, List.take_left, hstatus, hdrop, hhdrs]

theorem isRequest_unique {uri' : Bytes} {method' : HttpMethod} {headers' : List Header}
    (hend : crlf <:+ block) (h : IsRequest block method uri headers)
    (h' : IsRequest block method' uri' headers') :
    method = method' ∧ uri = uri' ∧ headers = headers' := by
  have hparse : parseHeaderBlock block = some ⟨method, uri, .v1p1, headers⟩ :=
    (parseHeaderBlock_eq_some hend).mpr h
  have hparse' : parseHeaderBlock block = some ⟨method', uri', .v1p1, headers'⟩ :=
    (parseHeaderBlock_eq_some hend).mpr h'
  have heq := Option.some.inj (hparse.symm.trans hparse')
  simpa using heq

end

end Cerverus.Http
