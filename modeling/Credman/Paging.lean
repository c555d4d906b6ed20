import Credman.AdminView
import Credman.Framing

/-! Pages of a listing: each is the longest that fits a frame, and walking them gives
every item once. -/
namespace Credman

open Library

/-- At most so many entries in a page. -/
def pageSize : Nat := 100

def pageValue (key : String) (items : List Json) (total : Nat) (hasMore : Bool) : Json :=
  .obj [("ok", .bool true), (key, .array items), ("total", .number (.posInt (UInt64.ofNat total))),
    ("has_more", .bool hasMore)]

/-- The loop of `bounded_page`: the first page that fits, from this many entries down. -/
def pageLoop (S : SerdeJson) (key : String) (rest : List Json) (total offset : Nat) :
    Nat → Except Error Json
  | 0 => .error .capacity
  | count + 1 =>
    let hasMore := decide (offset + (count + 1) < total)
    let response := pageValue key (rest.take (count + 1)) total hasMore
    if fitsFrame S response = true then .ok response else pageLoop S key rest total offset count

/-- At most 100 entries. A shorter page is returned when that is what fits in one frame. -/
def boundedPage (S : SerdeJson) (key : String) (items : List Json) (offset : Nat) :
    Except Error Json :=
  let total := items.length
  let rest := (items.drop offset).take pageSize
  if rest = [] then .ok (pageValue key [] total false)
  else pageLoop S key rest total offset rest.length

/-! What a client reads of a page. -/

def entriesOf (key : String) (page : Json) : Option (List Json) :=
  match page.get? key with
  | some (.array entries) => some entries
  | _ => none

def hasMoreOf (page : Json) : Bool :=
  match page.get? "has_more" with
  | some (.bool b) => b
  | _ => false

/-- A client adds what it was given to the offset until there is no more, or an error. -/
inductive Walk {ε : Type} (page : Nat → Except ε Json) (key : String) :
    Nat → List Json → Option (Nat × ε) → Prop
  | failed {offset : Nat} {e : ε} (h : page offset = .error e) :
    Walk page key offset [] (some (offset, e))
  | last {offset : Nat} {p : Json} {entries : List Json} (h : page offset = .ok p)
      (hentries : entriesOf key p = some entries) (hmore : hasMoreOf p = false) :
    Walk page key offset entries none
  | next {offset : Nat} {p : Json} {entries rest : List Json} {out : Option (Nat × ε)}
      (h : page offset = .ok p) (hentries : entriesOf key p = some entries) (hmore : hasMoreOf p = true)
      (hrest : Walk page key (offset + entries.length) rest out) :
    Walk page key offset (entries ++ rest) out

/-- There is one walk. -/
theorem Walk.unique {ε : Type} {page : Nat → Except ε Json} {key : String} {offset : Nat}
    {delivered delivered' : List Json} {out out' : Option (Nat × ε)}
    (h : Walk page key offset delivered out) (h' : Walk page key offset delivered' out') :
    delivered = delivered' ∧ out = out' := by
  induction h generalizing delivered' out' with
  | failed hpage =>
    cases h' with
    | failed hpage' =>
      rw [hpage, Except.error.injEq] at hpage'
      exact ⟨rfl, by rw [hpage']⟩
    | last hpage' | next hpage' =>
      rw [hpage] at hpage'
      cases hpage'
  | last hpage hentries hmore =>
    cases h' with
    | failed hpage' =>
      rw [hpage] at hpage'
      cases hpage'
    | last hpage' hentries' =>
      rw [hpage, Except.ok.injEq] at hpage'
      subst hpage'
      rw [hentries, Option.some.injEq] at hentries'
      exact ⟨hentries', rfl⟩
    | next hpage' _ hmore' =>
      rw [hpage, Except.ok.injEq] at hpage'
      subst hpage'
      rw [hmore] at hmore'
      cases hmore'
  | next hpage hentries hmore _ ih =>
    cases h' with
    | failed hpage' =>
      rw [hpage] at hpage'
      cases hpage'
    | last hpage' _ hmore' =>
      rw [hpage, Except.ok.injEq] at hpage'
      subst hpage'
      rw [hmore] at hmore'
      cases hmore'
    | next hpage' hentries' _ hrest' =>
      rw [hpage, Except.ok.injEq] at hpage'
      subst hpage'
      rw [hentries, Option.some.injEq] at hentries'
      subst hentries'
      obtain ⟨hrest, hout⟩ := ih hrest'
      exact ⟨by rw [hrest], hout⟩

/-! Reading and comparing pages. -/

/-- Compact printing: the text is that of the tokens, with the literals `true` and `false`. -/
def SerdeJson.Compact (S : SerdeJson) : Prop :=
  ∃ token : Token → Bytes, (∀ v, S.text v = v.tokens.flatMap token)
    ∧ token (.bool true) = [116, 114, 117, 101] ∧ token (.bool false) = [102, 97, 108, 115, 101]

theorem SerdeJson.reference_compact : SerdeJson.reference.Compact :=
  ⟨JsonText.token.enc, fun _ => List.flatMap_def.symm, rfl, rfl⟩

section Pages

variable {S : SerdeJson} {key : String} {items entries : List Json} {total offset : Nat} {b : Bool}

theorem get?_pageValue (key : String) (entries : List Json) (total : Nat) (b : Bool) (name : String) :
    (pageValue key entries total b).get? name =
      if name = "has_more" then some (.bool b)
      else if name = "total" then some (.number (.posInt (UInt64.ofNat total)))
      else if name = key then some (.array entries)
      else if name = "ok" then some (.bool true) else none := by
  unfold pageValue
  rw [Json.get?_obj]
  unfold OrdMap.ofList
  simp only [List.foldl_cons, List.foldl_nil, OrdMap.get?_insert, OrdMap.get?_empty]
  simp only [eq_comm (b := name)]

theorem hasMoreOf_pageValue : hasMoreOf (pageValue key entries total b) = b := by
  unfold hasMoreOf
  rw [get?_pageValue, if_pos rfl]

theorem entriesOf_pageValue (htotal : key ≠ "total") (hmore : key ≠ "has_more") :
    entriesOf key (pageValue key entries total b) = some entries := by
  unfold entriesOf
  rw [get?_pageValue, if_neg hmore, if_neg htotal, if_pos rfl]

/-- A page with fewer entries, or one that says there is more, is no longer. -/
theorem fits_page (hS : S.Compact) {entries' : List Json} {b' : Bool} (hentries : entries.Sublist entries')
    (hmore : b' = true → b = true) (h : fitsFrame S (pageValue key entries' total b') = true) :
    fitsFrame S (pageValue key entries total b) = true := by
  obtain ⟨token, htext, htrue, hfalse⟩ := hS
  let w : Token → Nat := fun t => (token t).length
  have hsize : ∀ v, (S.text v).length = v.weight w := by
    intro v
    rw [htext, List.length_flatMap]
    rfl
  have hbool : Json.Within w (.bool b) (.bool b') := by
    have hlt : w (.bool true) ≤ w (.bool false) := by
      change (token _).length ≤ (token _).length
      rw [htrue, hfalse]
      decide
    refine ⟨?_, le_refl _⟩
    cases b' with
    | true => rw [hmore rfl]
    | false =>
      cases b with
      | true => simpa [Json.weight, Json.tokens] using hlt
      | false => exact le_refl _
  have hwithin : Json.Within w (pageValue key entries total b) (pageValue key entries' total b') :=
    Json.within_obj (.cons ⟨rfl, .refl _⟩ (.cons ⟨rfl, Json.within_array hentries⟩
      (.cons ⟨rfl, .refl _⟩ (.cons ⟨rfl, hbool⟩ .nil))))
  rw [fitsFrame_iff, hsize] at h ⊢
  exact ⟨hwithin.depth.trans h.1, hwithin.weight.trans h.2⟩

/-- The page of the next `n` items. -/
def prefixPage (key : String) (items : List Json) (offset n : Nat) : Json :=
  pageValue key ((items.drop offset).take n) items.length (decide (offset + n < items.length))

theorem take_rest (items : List Json) {offset n : Nat}
    (h : n ≤ ((items.drop offset).take pageSize).length) :
    ((items.drop offset).take pageSize).take n = (items.drop offset).take n := by
  rw [List.length_take] at h
  rw [List.take_take, min_eq_left (h.trans (min_le_left _ _))]

theorem pageLoop_spec {count : Nat} (hcount : count ≤ ((items.drop offset).take pageSize).length) :
    (∀ p, pageLoop S key ((items.drop offset).take pageSize) items.length offset count = .ok p →
      ∃ n, 0 < n ∧ n ≤ count ∧ p = prefixPage key items offset n ∧ fitsFrame S p = true
        ∧ ∀ m, n < m → m ≤ count → fitsFrame S (prefixPage key items offset m) = false)
    ∧ ∀ e, pageLoop S key ((items.drop offset).take pageSize) items.length offset count = .error e →
      e = .capacity ∧ ∀ m, 0 < m → m ≤ count → fitsFrame S (prefixPage key items offset m) = false := by
  induction count with
  | zero =>
    refine ⟨nofun, fun e h => ⟨(Except.error.inj h).symm, fun m hpos hle => ?_⟩⟩
    exact absurd hle (not_le.mpr hpos)
  | succ count ih =>
    obtain ⟨hok, herror⟩ := ih (Nat.le_of_succ_le hcount)
    have hpage : pageValue key (((items.drop offset).take pageSize).take (count + 1)) items.length
        (decide (offset + (count + 1) < items.length)) = prefixPage key items offset (count + 1) := by
      rw [take_rest items hcount]
      rfl
    rw [pageLoop, hpage]
    split_ifs with hfits
    · refine ⟨?_, nofun⟩
      rintro _ ⟨⟩
      exact ⟨count + 1, Nat.succ_pos _, le_refl _, rfl, hfits, fun m hlt hle => absurd hle (not_le.mpr hlt)⟩
    · rw [Bool.not_eq_true] at hfits
      refine ⟨fun p h => ?_, fun e h => ?_⟩
      · obtain ⟨n, hpos, hle, hp, hfit, hlong⟩ := hok p h
        refine ⟨n, hpos, hle.trans (Nat.le_succ _), hp, hfit, fun m hlt hm => ?_⟩
        rcases Nat.le_succ_iff.mp hm with hm | rfl
        · exact hlong m hlt hm
        · exact hfits
      · obtain ⟨he, hlong⟩ := herror e h
        refine ⟨he, fun m hpos hm => ?_⟩
        rcases Nat.le_succ_iff.mp hm with hm | rfl
        · exact hlong m hpos hm
        · exact hfits

/-- A page that is returned: the longest that fits, and empty only at the end. -/
structure Longest (S : SerdeJson) (key : String) (items : List Json) (offset n : Nat) : Prop where
  bounded : n ≤ pageSize
  inside : n ≤ items.length - offset
  progress : offset < items.length → 0 < n
  fits : 0 < n → fitsFrame S (prefixPage key items offset n) = true
  longest : ∀ m, n < m → m ≤ pageSize → m ≤ items.length - offset →
    fitsFrame S (prefixPage key items offset m) = false

theorem boundedPage_eq_ok {p : Json} (h : boundedPage S key items offset = .ok p) :
    ∃ n, p = prefixPage key items offset n ∧ Longest S key items offset n := by
  unfold boundedPage at h
  dsimp only at h
  split_ifs at h with hrest
  · have hend : items.length ≤ offset := by
      rw [List.take_eq_nil_iff, List.drop_eq_nil_iff] at hrest
      exact hrest.resolve_left (by decide)
    cases h
    refine ⟨0, ?_, Nat.zero_le _, Nat.zero_le _, fun hlt => absurd hlt (not_lt.mpr hend),
      fun hpos => absurd hpos (lt_irrefl _), fun m hpos _ hm => ?_⟩
    · unfold prefixPage
      rw [List.take_zero, Nat.add_zero, decide_eq_false (not_lt.mpr hend)]
    · rw [Nat.sub_eq_zero_of_le hend] at hm
      exact absurd hm (not_le.mpr hpos)
  · obtain ⟨n, hpos, hle, hp, hfits, hlong⟩ := (pageLoop_spec (le_refl _)).1 p h
    rw [List.length_take, List.length_drop, le_min_iff] at hle
    refine ⟨n, hp, hle.1, hle.2, fun _ => hpos, fun _ => hp ▸ hfits, fun m hlt hsize hm => ?_⟩
    refine hlong m hlt ?_
    rw [List.length_take, List.length_drop]
    exact le_min hsize hm

theorem boundedPage_eq_error {e : Error} (h : boundedPage S key items offset = .error e) :
    e = .capacity ∧ offset < items.length
      ∧ fitsFrame S (prefixPage key items offset 1) = false := by
  unfold boundedPage at h
  dsimp only at h
  split_ifs at h with hrest
  have hlt : offset < items.length := by
    by_contra hge
    refine hrest (List.take_eq_nil_iff.mpr (.inr (List.drop_eq_nil_iff.mpr (not_lt.mp hge))))
  obtain ⟨he, hlong⟩ := (pageLoop_spec (le_refl _)).2 e h
  refine ⟨he, hlt, hlong 1 one_pos ?_⟩
  rw [List.length_take, List.length_drop]
  exact le_min (by decide) (by omega)

/-- A page that includes an item is no shorter than the page of that item alone. -/
theorem fits_alone (hS : S.Compact) {n : Nat} {item : Json} (hitem : item ∈ (items.drop offset).take n)
    (h : fitsFrame S (prefixPage key items offset n) = true) :
    fitsFrame S (pageValue key [item] items.length (decide (offset + n < items.length))) = true :=
  fits_page hS (List.singleton_sublist.mpr hitem) id h

theorem prefixPage_one {item : Json} (hitem : items[offset]? = some item) :
    prefixPage key items offset 1
      = pageValue key [item] items.length (decide (offset + 1 < items.length)) := by
  have htake : (items.drop offset).take 1 = [item] := by
    rw [List.take_one, List.head?_drop, hitem]
    rfl
  unfold prefixPage
  rw [htake]

/-- A walk goes on to the first item no page can hold, or to the end. The induction is on what is
left before it. -/
theorem walk_until (hS : S.Compact) (htotal : key ≠ "total") (hmore : key ≠ "has_more") {stop : Nat}
    (hstop : stop ≤ items.length)
    (hgood : ∀ i < stop, ∀ item, items[i]? = some item →
      fitsFrame S (pageValue key [item] items.length (decide (i + 1 < items.length))) = true)
    (hbad : ∀ item, items[stop]? = some item → ∀ b, fitsFrame S (pageValue key [item] items.length b) = false)
    (left : Nat) (hoffset : offset ≤ stop) (hleft : stop - offset < left) :
    Walk (boundedPage S key items) key offset ((items.drop offset).take (stop - offset))
      (if stop < items.length then some (stop, .capacity) else none) := by
  induction left generalizing offset with
  | zero => exact absurd hleft (Nat.not_lt_zero _)
  | succ left ih =>
    cases hpage : boundedPage S key items offset with
    | error e =>
      obtain ⟨rfl, hlt, hone⟩ := boundedPage_eq_error hpage
      have hitem : items[offset]? = some items[offset] := List.getElem?_eq_getElem hlt
      rw [prefixPage_one hitem] at hone
      have hhere : offset = stop := by
        refine le_antisymm hoffset (not_lt.mp fun hbefore => ?_)
        rw [hgood offset hbefore _ hitem] at hone
        cases hone
      subst hhere
      rw [Nat.sub_self, List.take_zero, if_pos hlt]
      exact .failed hpage
    | ok p =>
      obtain ⟨n, rfl, hlongest⟩ := boundedPage_eq_ok hpage
      have hinside := hlongest.inside
      have hlength : ((items.drop offset).take n).length = n := by
        rw [List.length_take, List.length_drop]
        exact min_eq_left hinside
      have hentries : entriesOf key (prefixPage key items offset n) = some ((items.drop offset).take n) :=
        entriesOf_pageValue htotal hmore
      -- a page never reaches over the item that fits nowhere
      have hbefore : offset + n ≤ stop := by
        by_contra hover
        have hlt : stop < items.length := by omega
        have hitem : items[stop]? = some items[stop] := List.getElem?_eq_getElem hlt
        have hmem : items[stop] ∈ (items.drop offset).take n := by
          refine List.mem_of_getElem? (i := stop - offset) ?_
          rw [List.getElem?_take, if_pos (by omega), List.getElem?_drop, ← hitem]
          congr 1
          omega
        have hfits := fits_alone hS hmem (hlongest.fits (by omega))
        rw [hbad _ hitem] at hfits
        cases hfits
      by_cases hend : offset + n < items.length
      · have hpos := hlongest.progress (by omega)
        have hrest := ih hbefore (by omega)
        rw [← hlength] at hrest
        have hsplit : (items.drop offset).take (stop - offset) = (items.drop offset).take n
            ++ (items.drop (offset + ((items.drop offset).take n).length)).take
              (stop - (offset + ((items.drop offset).take n).length)) := by
          rw [hlength, ← List.drop_drop, show stop - offset = n + (stop - (offset + n)) by omega, List.take_add]
        rw [hsplit]
        exact .next hpage hentries (by rw [prefixPage, hasMoreOf_pageValue, decide_eq_true hend]) hrest
      · have hall : stop = items.length := by omega
        have hn : n = stop - offset := by omega
        rw [if_neg (by omega), ← hn]
        exact .last hpage hentries (by rw [prefixPage, hasMoreOf_pageValue, decide_eq_false hend])

/-- Paging through a listing is complete. If every item fits a frame alone, the walk gives the
items, in order and once; if one fits nowhere, it gives those before it and then refuses at its offset.
Every page has at most 100 entries, fits the frame, tells the total, and is the longest
that fits. -/
theorem paging_complete (hS : S.Compact) (htotal : key ≠ "total") (hmore : key ≠ "has_more")
    (items : List Json) (hempty : fitsFrame S (pageValue key [] items.length false) = true) :
    ((∀ item ∈ items, ∀ b, fitsFrame S (pageValue key [item] items.length b) = true) →
      ∀ delivered out, Walk (boundedPage S key items) key 0 delivered out
        ↔ delivered = items ∧ out = none)
    ∧ (∀ before item after, items = before ++ item :: after →
      (∀ x ∈ before, ∃ b, fitsFrame S (pageValue key [x] items.length b) = true) →
      (∀ b, fitsFrame S (pageValue key [item] items.length b) = false) →
      ∀ delivered out, Walk (boundedPage S key items) key 0 delivered out
        ↔ delivered = before ∧ out = some (before.length, .capacity))
    ∧ ∀ offset p, boundedPage S key items offset = .ok p → ∃ entries, entriesOf key p = some entries
      ∧ entries = (items.drop offset).take entries.length ∧ entries.length ≤ 100
      ∧ fitsFrame S p = true
      ∧ p.get? "total" = some (.number (.posInt (UInt64.ofNat items.length)))
      ∧ hasMoreOf p = decide (offset + entries.length < items.length)
      ∧ (offset < items.length → entries ≠ [])
      ∧ ∀ n, entries.length < n → n ≤ 100 → offset + n ≤ items.length →
        fitsFrame S (pageValue key ((items.drop offset).take n) items.length
          (decide (offset + n < items.length))) = false := by
  refine ⟨fun halone => ?_, ?_, ?_⟩
  · have hwalk : Walk (boundedPage S key items) key 0 items none := by
      have hall := walk_until hS htotal hmore (le_refl items.length)
        (fun i _ item hitem => halone item (List.mem_of_getElem? hitem) _)
        (fun item hitem => absurd hitem (by simp)) (items.length - 0 + 1) (Nat.zero_le _)
        (Nat.lt_succ_self _)
      rwa [if_neg (lt_irrefl _), List.drop_zero, Nat.sub_zero, List.take_length] at hall
    intro delivered out
    exact ⟨fun h => h.unique hwalk, fun ⟨hd, ho⟩ => by rw [hd, ho]; exact hwalk⟩
  · rintro before item after rfl hbefore hitem
    have hlt : before.length < (before ++ item :: after).length := by
      rw [List.length_append, List.length_cons]
      omega
    have hwalk : Walk (boundedPage S key (before ++ item :: after)) key 0 before
        (some (before.length, .capacity)) := by
      have hall := walk_until hS htotal hmore (le_of_lt hlt) (fun i hi x hx => ?_) (fun x hx => ?_)
        (before.length - 0 + 1) (Nat.zero_le _) (Nat.lt_succ_self _)
      · rwa [if_pos hlt, List.drop_zero, Nat.sub_zero, List.take_left] at hall
      · rw [List.getElem?_append_left hi] at hx
        obtain ⟨b, hb⟩ := hbefore x (List.mem_of_getElem? hx)
        refine fits_page hS (List.Sublist.refl _) (fun _ => ?_) hb
        exact decide_eq_true (by omega)
      · rw [List.getElem?_append_right (le_refl _), Nat.sub_self, List.getElem?_cons_zero,
          Option.some.injEq] at hx
        exact hx ▸ hitem
    intro delivered out
    exact ⟨fun h => h.unique hwalk, fun ⟨hd, ho⟩ => by rw [hd, ho]; exact hwalk⟩
  · intro offset p hpage
    obtain ⟨n, rfl, hlongest⟩ := boundedPage_eq_ok hpage
    have hlength : ((items.drop offset).take n).length = n := by
      rw [List.length_take, List.length_drop]
      exact min_eq_left hlongest.inside
    refine ⟨_, entriesOf_pageValue htotal hmore, by rw [hlength], by rw [hlength]; exact hlongest.bounded, ?_,
      ?_, by rw [prefixPage, hasMoreOf_pageValue, hlength], fun hlt hnil => ?_, fun m hlt hm hle => ?_⟩
    · rcases Nat.eq_zero_or_pos n with rfl | hpos
      · have hend : ¬ offset + 0 < items.length :=
          fun hlt => absurd (hlongest.progress hlt) (lt_irrefl _)
        rw [prefixPage, List.take_zero, decide_eq_false hend]
        exact hempty
      · exact hlongest.fits hpos
    · rw [prefixPage, get?_pageValue, if_neg (by decide), if_pos rfl]
    · rw [hnil] at hlength
      exact absurd (hlongest.progress hlt) (hlength ▸ lt_irrefl _)
    · rw [hlength] at hlt
      exact hlongest.longest m hlt hm (by omega)

end Pages

/-- The page of a listing is no shorter than the name of its entries. -/
theorem fits_key {key : String} {entries : List Json} {total : Nat} {b : Bool}
    (htotal : key ≠ "total") (hmore : key ≠ "has_more")
    (h : fitsFrame .reference (pageValue key entries total b) = true) : key.utf8ByteSize ≤ maxFrameBytes := by
  have hmem : .string key ∈ (pageValue key entries total b).tokens := by
    have hget := get?_pageValue key entries total b key
    rw [if_neg hmore, if_neg htotal, if_pos rfl] at hget
    exact List.mem_cons_of_mem _ (Json.key_mem_memberTokens (OrdMap.mem_entries.mpr hget))
  have hsize := (JsonText.length_string_le key).trans (SerdeJson.length_token_le hmem)
  exact (Nat.le_add_right _ 2).trans (hsize.trans (fitsFrame_iff.mp h).2)

/-- Under the name of another member the entries are lost, and a name may be too long for
any frame. -/
theorem paging_incomplete :
    (∀ b, fitsFrame .reference (pageValue "total" [.null] 1 b) = true)
    ∧ (¬ ∃ delivered out, Walk (boundedPage .reference "total" [.null]) "total" 0 delivered out)
    ∧ ∃ key p, boundedPage .reference key [] 0 = .ok p ∧ fitsFrame .reference p = false := by
  refine ⟨by decide +kernel, ?_, ?_⟩
  · rintro ⟨delivered, out, hwalk⟩
    have hlost : ∀ {p entries}, boundedPage .reference "total" [.null] 0 = .ok p →
        entriesOf "total" p ≠ some entries := by
      intro p entries hpage
      obtain ⟨n, rfl, -⟩ := boundedPage_eq_ok hpage
      rw [prefixPage, entriesOf, get?_pageValue, if_neg (by decide), if_pos rfl]
      nofun
    cases hwalk with
    | failed hpage =>
      obtain ⟨-, -, hone⟩ := boundedPage_eq_error hpage
      have hfits : fitsFrame .reference (prefixPage "total" [.null] 0 1) = true := by decide +kernel
      rw [hfits] at hone
      cases hone
    | last hpage hentries | next hpage hentries => exact hlost hpage hentries
  · let key := String.ofList (List.replicate 65537 'k')
    have hsize : key.utf8ByteSize = 65537 := by
      have hreplicate : ∀ n, String.utf8Len (List.replicate n 'k') = n := by
        intro n
        induction n with
        | zero => rfl
        | succ n ih => rw [List.replicate_succ, String.utf8Len_cons, ih]; rfl
      rw [String.utf8ByteSize_ofList, hreplicate]
    have hother : ∀ name : String, name.utf8ByteSize < 65537 → key ≠ name := by
      rintro name hshort heq
      rw [← heq, hsize] at hshort
      exact lt_irrefl _ hshort
    refine ⟨key, _, rfl, ?_⟩
    rw [← Bool.not_eq_true]
    intro hfits
    have hle := fits_key (hother "total" (by decide)) (hother "has_more" (by decide)) hfits
    rw [hsize] at hle
    exact absurd hle (by decide)

theorem paging_complete_two : Walk (boundedPage .reference "tasks" [.string "a", .string "b"]) "tasks" 0
    [.string "a", .string "b"] none := by
  obtain ⟨hall, -⟩ := paging_complete SerdeJson.reference_compact (show "tasks" ≠ "total" by decide) (by decide)
    [.string "a", .string "b"] (by decide +kernel)
  exact (hall (by decide +kernel) _ _).mpr ⟨rfl, rfl⟩

end Credman
