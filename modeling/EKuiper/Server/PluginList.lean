import Mathlib.Data.List.Basic

/-!
# The plugin list of the REST server

`prebuildPluginsHandler` in `internal/server/rest.go` lists the prebuilt plugins a host offers
by `fetchPluginList`: for each host of the comma-separated configuration it fetches the page
`<host>/kuiper-plugins/<version>/<os>/<ptype>`, reads the plugins it links with
`extractFromHtml`, and records for each plugin the download address
`<url>/<plugin>_<arch>.zip`, the first host listing a plugin winning.

Two collaborators are not modelled. The HTML tokenizer of `golang.org/x/net/html` is
represented by the tokens it hands `extractFromHtml` (`HtmlToken`), and the HTTP client by a
function `fetch` from a URL to what `client.Get` and `ioutil.ReadAll` give (`Fetched`), of
which nothing is assumed. The logging calls are left out. `strings.ToUpper` is ASCII
upper-casing, exact on the comparison with `HREF`; `strings.LastIndex` and
`strings.HasSuffix` work on characters here and on bytes in Go, which agree for the ASCII
separator `_` and suffix `.zip` on UTF-8 text.

**The plugin file name reads back** when the architecture has no `_`, as no `GOARCH` value
has: `extractFromHtml` lists `p` exactly when the page links `p_<arch>.zip`
(`mem_extractFromHtml`), so the address `fetchPluginList` records is the listing host's URL
followed by the link itself (`fetchPluginList_lookup`). The listing fails as a whole when one
host does not answer with a page (`fetchPluginList_ok_iff`), and then with the error of the
first such host (`fetchPluginList_eq_error`).
-/

namespace EKuiper

/-! ### Strings -/

/-- `strings.Split(s, sep)` for a one-character separator, on the characters of `s`. -/
def splitChars (sep : Char) : List Char → List (List Char)
  | [] => [[]]
  | c :: cs =>
    if c = sep then [] :: splitChars sep cs
    else
      match splitChars sep cs with
      | w :: ws => (c :: w) :: ws
      | [] => [[c]]

/-- `strings.Split(s, string(sep))`. -/
def split (s : String) (sep : Char) : List String :=
  (splitChars sep s.data).map String.mk

/-- `strings.LastIndex(s, string(c))` on the characters of `s`: the position of the last `c`,
or `none` for Go's `-1`. -/
def lastIndex (c : Char) : List Char → Option Nat
  | [] => none
  | x :: xs =>
    match lastIndex c xs with
    | some i => some (i + 1)
    | none => if x = c then some 0 else none

theorem lastIndex_eq_none {c : Char} {l : List Char} (h : c ∉ l) : lastIndex c l = none := by
  induction l with
  | nil => rfl
  | cons x xs ih =>
    simp only [List.mem_cons, not_or] at h
    simp [lastIndex, ih h.2, Ne.symm h.1]

theorem lastIndex_append_cons {c : Char} (p : List Char) {q : List Char} (hq : c ∉ q) :
    lastIndex c (p ++ c :: q) = some p.length := by
  induction p with
  | nil => simp [lastIndex, lastIndex_eq_none hq]
  | cons x xs ih => simp [lastIndex, ih]

/-! ### Reading a page -/

/-- `strings.ToUpper` on the ASCII letters. -/
def toUpper (s : String) : String :=
  ⟨s.data.map Char.toUpper⟩

/-- `strings.HasSuffix(s, suffix)`. -/
def hasSuffix (s suffix : String) : Bool :=
  suffix.data.isSuffixOf s.data

/-- The body of `if strings.HasSuffix(prop.Val, "_"+arch+".zip")`: the text of `val` before its
last `_`. -/
def hrefPlugin (arch val : String) : Option String :=
  if hasSuffix val ("_" ++ arch ++ ".zip") then
    (lastIndex '_' val.data).map fun index => ⟨val.data.take index⟩
  else none

/-- **The plugin file name reads back.** For an architecture without `_`, an `href` value
gives the plugin `p` exactly when it is `p_<arch>.zip`. -/
theorem hrefPlugin_eq_some_iff {arch : String} (harch : '_' ∉ arch.data) (val p : String) :
    hrefPlugin arch val = some p ↔ val = p ++ "_" ++ arch ++ ".zip" := by
  have hq : '_' ∉ arch.data ++ ".zip".data := by simp [harch]
  have hsfx : ("_" ++ arch ++ ".zip").data = '_' :: (arch.data ++ ".zip".data) := by simp
  have hlast :
      ∀ t : List Char, lastIndex '_' (t ++ ("_" ++ arch ++ ".zip").data) = some t.length :=
    fun t => by rw [hsfx]; exact lastIndex_append_cons t hq
  constructor
  · intro h
    unfold hrefPlugin at h
    split_ifs at h with hs
    obtain ⟨t, ht⟩ := List.isSuffixOf_iff_suffix.mp hs
    rw [← ht, hlast, Option.map_some', Option.some.injEq, List.take_left] at h
    subst h
    exact String.ext (by simp [← ht])
  · rintro rfl
    have hv : (p ++ "_" ++ arch ++ ".zip").data = p.data ++ ("_" ++ arch ++ ".zip").data := by simp
    have hs : hasSuffix (p ++ "_" ++ arch ++ ".zip") ("_" ++ arch ++ ".zip") = true :=
      List.isSuffixOf_iff_suffix.mpr ⟨p.data, hv.symm⟩
    rw [hrefPlugin, if_pos hs, hv, hlast, Option.map_some', List.take_left]

/-- The loop `for _, prop := range t.Attr` over one anchor's attributes. -/
def anchorPlugins (arch : String) : List (String × String) → List String
  | [] => []
  | (key, val) :: attr =>
    (if toUpper key = "HREF" then (hrefPlugin arch val).toList else []) ++
      anchorPlugins arch attr

/-- A token of the HTML tokenizer as `extractFromHtml` reads it. -/
inductive HtmlToken where
  | errorToken
  | startTagToken (data : String) (attr : List (String × String))
  | otherToken

/-- `extractFromHtml`, on the tokens of the page. -/
def extractFromHtml (arch : String) : List HtmlToken → List String
  | [] => []
  | .errorToken :: _ => []
  | .startTagToken data attr :: ts =>
    (if data = "a" then anchorPlugins arch attr else []) ++ extractFromHtml arch ts
  | .otherToken :: ts => extractFromHtml arch ts

/-- The `href` values of the anchors of a page, before the first error token. -/
def anchorHrefs : List HtmlToken → List String
  | [] => []
  | .errorToken :: _ => []
  | .startTagToken data attr :: ts =>
    (if data = "a" then (attr.filter fun kv => toUpper kv.1 = "HREF").map Prod.snd else []) ++
      anchorHrefs ts
  | .otherToken :: ts => anchorHrefs ts

theorem anchorPlugins_eq (arch : String) (attr : List (String × String)) :
    anchorPlugins arch attr =
      ((attr.filter fun kv => toUpper kv.1 = "HREF").map Prod.snd).filterMap (hrefPlugin arch) := by
  induction attr with
  | nil => rfl
  | cons kv attr ih =>
    obtain ⟨key, val⟩ := kv
    by_cases h : toUpper key = "HREF" <;> cases hp : hrefPlugin arch val <;>
      simp [anchorPlugins, h, hp, ih, List.filter_cons]

theorem extractFromHtml_eq (arch : String) (ts : List HtmlToken) :
    extractFromHtml arch ts = (anchorHrefs ts).filterMap (hrefPlugin arch) := by
  induction ts with
  | nil => rfl
  | cons t ts ih =>
    cases t with
    | errorToken => rfl
    | startTagToken data attr =>
      by_cases h : data = "a" <;> simp [extractFromHtml, anchorHrefs, h, ih, anchorPlugins_eq]
    | otherToken => exact ih

/-- **What `extractFromHtml` lists.** For an architecture without `_`, a plugin `p` is listed
exactly when an anchor before the end of the page links `p_<arch>.zip`. -/
theorem mem_extractFromHtml {arch : String} (harch : '_' ∉ arch.data) (ts : List HtmlToken)
    (p : String) :
    p ∈ extractFromHtml arch ts ↔ p ++ "_" ++ arch ++ ".zip" ∈ anchorHrefs ts := by
  rw [extractFromHtml_eq, List.mem_filterMap]
  constructor
  · rintro ⟨val, hval, hp⟩
    rwa [← (hrefPlugin_eq_some_iff harch val p).mp hp]
  · intro h
    exact ⟨_, h, (hrefPlugin_eq_some_iff harch _ p).mpr rfl⟩

/-! ### Fetching the hosts -/

/-- What `client.Get(url)` followed by `ioutil.ReadAll(resp.Body)` gives. -/
inductive Fetched where
  | getError (err : String)
  | response (statusCode : Nat) (body : Except String (List HtmlToken))

/-- `strings.Join([]string{host, "kuiper-plugins", version, os, ptype}, "/")`. -/
def pluginUrl (version os ptype host : String) : String :=
  "/".intercalate [host, "kuiper-plugins", version, os, ptype]

/-- `strings.Trim(host, " ")`. -/
def trimSpaces (s : String) : String :=
  ⟨((s.data.dropWhile (· = ' ')).reverse.dropWhile (· = ' ')).reverse⟩

/-- The download address `url + "/" + p + "_" + arch + ".zip"`. -/
def pluginAddress (url arch p : String) : String :=
  url ++ "/" ++ p ++ "_" ++ arch ++ ".zip"

/-- The loop over one page's plugins: the first address of a plugin wins. -/
def addPlugins (url arch : String) :
    List (String × String) → List String → List (String × String)
  | result, [] => result
  | result, p :: ps =>
    addPlugins url arch
      (if (result.lookup p).isSome then result else result ++ [(p, pluginAddress url arch p)]) ps

/-- One host's answer as the loop over the hosts reads it: the error of `client.Get` or of
`ioutil.ReadAll`, the status error when the status is not `200`, or the page's tokens. -/
def hostResult (url : String) : Fetched → Except String (List HtmlToken)
  | .getError err => .error err
  | .response statusCode body =>
    if statusCode ≠ 200 then
      .error ("Cannot fetch plugin list from " ++ url ++ ", with status error: " ++
        toString statusCode)
    else body

/-- The loop over the hosts. -/
def fetchHosts (version os ptype arch : String) (fetch : String → Fetched) :
    List (String × String) → List String → Except String (List (String × String))
  | result, [] => .ok result
  | result, host :: hosts =>
    let url := pluginUrl version os ptype (trimSpaces host)
    match hostResult url (fetch url) with
    | .error err => .error err
    | .ok tokens =>
      fetchHosts version os ptype arch fetch
        (addPlugins url arch result (extractFromHtml arch tokens)) hosts

/-- `fetchPluginList`: the plugins of every host of the comma-separated `hosts`, with their
download addresses. -/
def fetchPluginList (version : String) (fetch : String → Fetched) (hosts ptype os arch : String) :
    Except String (List (String × String)) :=
  if hosts = "" ∨ ptype = "" ∨ os = "" then
    .error "Invalid configruation for plugin host in kuiper.yaml."
  else fetchHosts version os ptype arch fetch [] (split hosts ',')

/-! ### The address map -/

theorem lookup_addPlugins (url arch : String) (m : List (String × String)) (ps : List String)
    (p : String) :
    (addPlugins url arch m ps).lookup p =
      (m.lookup p).or (if p ∈ ps then some (pluginAddress url arch p) else none) := by
  induction ps generalizing m with
  | nil => simp [addPlugins]
  | cons q ps ih =>
    rw [addPlugins, ih]
    by_cases hpq : p = q
    · subst hpq
      cases hm : m.lookup p <;> simp [hm, List.lookup_append, List.lookup_cons]
    · have hb : (p == q) = false := beq_false_of_ne hpq
      simp only [List.mem_cons, hpq, false_or]
      split_ifs <;> simp [hb, List.lookup_append, List.lookup_cons]

/-- The tokens of the page at `url`, when fetching it succeeds with status `200`. -/
def hostPage (fetch : String → Fetched) (url : String) : Option (List HtmlToken) :=
  (hostResult url (fetch url)).toOption

/-- The URL and page of each host that answers, in the order of `hosts`. -/
def hostPages (version os ptype : String) (fetch : String → Fetched) (hosts : List String) :
    List (String × List HtmlToken) :=
  hosts.filterMap fun host =>
    (hostPage fetch (pluginUrl version os ptype (trimSpaces host))).map fun tokens =>
      (pluginUrl version os ptype (trimSpaces host), tokens)

/-- The address of `p` on the first of `pages` that lists it. -/
def firstAddress (arch p : String) : List (String × List HtmlToken) → Option String
  | [] => none
  | (url, tokens) :: pages =>
    if p ∈ extractFromHtml arch tokens then some (pluginAddress url arch p)
    else firstAddress arch p pages

theorem hostPage_eq_some {fetch : String → Fetched} {url : String} {tokens : List HtmlToken} :
    hostPage fetch url = some tokens ↔ hostResult url (fetch url) = .ok tokens := by
  unfold hostPage
  cases hostResult url (fetch url) <;> simp [Except.toOption]

section Run

variable {version os ptype arch : String} {fetch : String → Fetched}

/-- **Run lemma** of the loop over the hosts: when every host answers, the loop ends with the
map that gives each plugin its address on the first host listing it, after those already in
the map. -/
theorem fetchHosts_ok : ∀ (hosts : List String) (m₀ : List (String × String)),
    (∀ host ∈ hosts, (hostPage fetch (pluginUrl version os ptype (trimSpaces host))).isSome) →
    ∃ m, fetchHosts version os ptype arch fetch m₀ hosts = .ok m ∧
      ∀ p, m.lookup p =
        (m₀.lookup p).or (firstAddress arch p (hostPages version os ptype fetch hosts))
  | [], m₀, _ => ⟨m₀, rfl, fun p => by simp [hostPages, firstAddress]⟩
  | host :: hosts, m₀, hall => by
    obtain ⟨tokens, htok⟩ := Option.isSome_iff_exists.mp (hall host (List.mem_cons_self _ _))
    obtain ⟨m, hm, hlook⟩ := fetchHosts_ok hosts
      (addPlugins (pluginUrl version os ptype (trimSpaces host)) arch m₀
        (extractFromHtml arch tokens)) fun h hh => hall h (List.mem_cons_of_mem _ hh)
    refine ⟨m, ?_, fun p => ?_⟩
    · simp [fetchHosts, hostPage_eq_some.mp htok, hm]
    · rw [hlook, lookup_addPlugins]
      simp only [hostPages, List.filterMap_cons, htok, Option.map_some', firstAddress]
      by_cases hp : p ∈ extractFromHtml arch tokens <;> simp [hp, Option.or_assoc]

/-- **Run lemma** of the loop over the hosts on failure: it fails with `e` exactly when, after
hosts that all answer with a page, one host's answer is the error `e`. -/
theorem fetchHosts_eq_error (e : String) :
    ∀ (hosts : List String) (m₀ : List (String × String)),
    fetchHosts version os ptype arch fetch m₀ hosts = .error e ↔
      ∃ before host after, hosts = before ++ host :: after ∧
        (∀ b ∈ before, (hostPage fetch (pluginUrl version os ptype (trimSpaces b))).isSome) ∧
        hostResult (pluginUrl version os ptype (trimSpaces host))
          (fetch (pluginUrl version os ptype (trimSpaces host))) = .error e
  | [], m₀ => by
    refine ⟨nofun, ?_⟩
    rintro ⟨before, host, after, h, -⟩
    exact absurd h.symm (List.append_ne_nil_of_right_ne_nil _ (List.cons_ne_nil _ _))
  | h :: hs, m₀ => by
    cases hr : hostResult (pluginUrl version os ptype (trimSpaces h))
        (fetch (pluginUrl version os ptype (trimSpaces h))) with
    | error err =>
      simp only [fetchHosts, hr, Except.error.injEq]
      constructor
      · rintro rfl
        exact ⟨[], h, hs, rfl, nofun, hr⟩
      · rintro ⟨_ | ⟨b, before⟩, host, after, heq, hb, he⟩ <;>
          obtain ⟨rfl, rfl⟩ := List.cons.inj heq
        · exact Except.error.inj (hr.symm.trans he)
        · simpa [hostPage, hr, Except.toOption] using hb _ (List.mem_cons_self _ _)
    | ok tokens =>
      simp only [fetchHosts, hr]
      rw [fetchHosts_eq_error e hs]
      constructor
      · rintro ⟨before, host, after, rfl, hb, he⟩
        refine ⟨h :: before, host, after, rfl, List.forall_mem_cons.mpr ⟨?_, hb⟩, he⟩
        simp [hostPage, hr, Except.toOption]
      · rintro ⟨_ | ⟨b, before⟩, host, after, heq, hb, he⟩ <;>
          obtain ⟨rfl, rfl⟩ := List.cons.inj heq
        · exact absurd (hr.symm.trans he) nofun
        · exact ⟨before, host, after, rfl, fun x hx => hb x (List.mem_cons_of_mem _ hx), he⟩

/-- A loop over the hosts that ends without error read a page from every host. -/
theorem hostPage_isSome_of_fetchHosts :
    ∀ {hosts : List String} {m₀ m : List (String × String)},
    fetchHosts version os ptype arch fetch m₀ hosts = .ok m →
      ∀ host ∈ hosts, (hostPage fetch (pluginUrl version os ptype (trimSpaces host))).isSome
  | [], _, _, _ => nofun
  | h :: hs, m₀, m, hok => by
    cases hr : hostResult (pluginUrl version os ptype (trimSpaces h))
        (fetch (pluginUrl version os ptype (trimSpaces h))) with
    | error err => simp [fetchHosts, hr] at hok
    | ok tokens =>
      simp only [fetchHosts, hr] at hok
      exact List.forall_mem_cons.mpr
        ⟨by simp [hostPage, hr, Except.toOption], hostPage_isSome_of_fetchHosts hok⟩

end Run

/-- For an architecture without `_`, the first page listing `p` is the first page linking
`p_<arch>.zip`. -/
theorem firstAddress_eq {arch : String} (harch : '_' ∉ arch.data) (p : String) :
    ∀ pages : List (String × List HtmlToken), firstAddress arch p pages =
      (pages.find? fun page => p ++ "_" ++ arch ++ ".zip" ∈ anchorHrefs page.2).map fun page =>
        page.1 ++ "/" ++ (p ++ "_" ++ arch ++ ".zip")
  | [] => rfl
  | (url, tokens) :: pages => by
    rw [firstAddress, List.find?_cons, firstAddress_eq harch p pages]
    by_cases hp : p ∈ extractFromHtml arch tokens
    · have hl := (mem_extractFromHtml harch tokens p).mp hp
      simp only [String.append_assoc] at hl
      simp [hp, hl, pluginAddress, String.append_assoc]
    · have hl := mt (mem_extractFromHtml harch tokens p).mpr hp
      simp [hp, hl]

variable {version hosts ptype os arch : String} {fetch : String → Fetched}

/-- A successful listing had a configuration and a page from every host. -/
theorem hosts_answer_of_ok {m : List (String × String)}
    (h : fetchPluginList version fetch hosts ptype os arch = .ok m) :
    ¬(hosts = "" ∨ ptype = "" ∨ os = "") ∧ ∀ host ∈ split hosts ',',
      (hostPage fetch (pluginUrl version os ptype (trimSpaces host))).isSome := by
  unfold fetchPluginList at h
  split_ifs at h with hcfg
  exact ⟨hcfg, hostPage_isSome_of_fetchHosts h⟩

/-- **When `fetchPluginList` succeeds.** It succeeds exactly when `hosts`, `ptype` and `os` are
not empty and every host of the comma-separated `hosts` answers with status `200` and a body
read whole: one failing host fails the whole listing. -/
theorem fetchPluginList_ok_iff :
    (∃ m, fetchPluginList version fetch hosts ptype os arch = .ok m) ↔
      (hosts ≠ "" ∧ ptype ≠ "" ∧ os ≠ "") ∧ ∀ host ∈ split hosts ',',
        (hostPage fetch (pluginUrl version os ptype (trimSpaces host))).isSome := by
  constructor
  · rintro ⟨m, hm⟩
    obtain ⟨hcfg, hall⟩ := hosts_answer_of_ok hm
    exact ⟨by tauto, hall⟩
  · rintro ⟨hcfg, hall⟩
    obtain ⟨m, hm, -⟩ := @fetchHosts_ok version os ptype arch fetch _ [] hall
    exact ⟨m, by rw [fetchPluginList, if_neg (by tauto), hm]⟩

/-- **Which error `fetchPluginList` returns.** With an empty `hosts`, `ptype` or `os` it is the
configuration error. Otherwise it is the error of the first host, in the order of `hosts`,
that does not answer with a page: the error of `client.Get` or of `ioutil.ReadAll`, or the
status error naming the host's URL and the status; the hosts after it are not fetched. -/
theorem fetchPluginList_eq_error (e : String) :
    fetchPluginList version fetch hosts ptype os arch = .error e ↔
      if hosts = "" ∨ ptype = "" ∨ os = "" then
        e = "Invalid configruation for plugin host in kuiper.yaml."
      else ∃ before host after, split hosts ',' = before ++ host :: after ∧
        (∀ b ∈ before, (hostPage fetch (pluginUrl version os ptype (trimSpaces b))).isSome) ∧
        hostResult (pluginUrl version os ptype (trimSpaces host))
          (fetch (pluginUrl version os ptype (trimSpaces host))) = .error e := by
  unfold fetchPluginList
  split_ifs
  · exact ⟨fun h => (Except.error.inj h).symm, fun h => h ▸ rfl⟩
  · exact fetchHosts_eq_error e _ _

example :
    fetchPluginList "1.0" (fun _ => .response 404 (.ok [])) " h1 ,h2" "sinks" "debian" "amd64" =
      .error ("Cannot fetch plugin list from h1/kuiper-plugins/1.0/debian/sinks, " ++
        "with status error: 404") :=
  rfl

/-- **Where `fetchPluginList` points a plugin.** For an architecture without `_`, when
`fetchPluginList` succeeds, a plugin `p` has an address exactly when some host's page links
`p_<arch>.zip`, and the address is the URL of the first such host followed by `/` and the
link. -/
theorem fetchPluginList_lookup (harch : '_' ∉ arch.data) {m : List (String × String)}
    (h : fetchPluginList version fetch hosts ptype os arch = .ok m) (p : String) :
    m.lookup p =
      ((hostPages version os ptype fetch (split hosts ',')).find? fun page =>
        p ++ "_" ++ arch ++ ".zip" ∈ anchorHrefs page.2).map fun page =>
          page.1 ++ "/" ++ (p ++ "_" ++ arch ++ ".zip") := by
  obtain ⟨hcfg, hall⟩ := hosts_answer_of_ok h
  obtain ⟨m', hm', hlook⟩ := @fetchHosts_ok version os ptype arch fetch _ [] hall
  rw [fetchPluginList, if_neg hcfg, hm', Except.ok.injEq] at h
  subst h
  rw [hlook, List.lookup_nil, Option.none_or, firstAddress_eq harch]

/-- One host whose page links `sql_amd64.zip`: the plugin `sql` is downloaded from that host. -/
theorem fetchPluginList_lookup_sql :
    fetchPluginList "1.0"
        (fun _ => .response 200 (.ok [.startTagToken "a" [("href", "sql_amd64.zip")]]))
        "h1" "sinks" "debian" "amd64" =
      .ok [("sql", "h1/kuiper-plugins/1.0/debian/sinks/sql_amd64.zip")] ∧
    List.lookup "sql" [("sql", "h1/kuiper-plugins/1.0/debian/sinks/sql_amd64.zip")] =
      some "h1/kuiper-plugins/1.0/debian/sinks/sql_amd64.zip" :=
  have hok : fetchPluginList "1.0"
      (fun _ => .response 200 (.ok [.startTagToken "a" [("href", "sql_amd64.zip")]]))
      "h1" "sinks" "debian" "amd64" =
        .ok [("sql", "h1/kuiper-plugins/1.0/debian/sinks/sql_amd64.zip")] := by rfl
  ⟨hok, (fetchPluginList_lookup (by decide) hok "sql").trans (by decide)⟩

end EKuiper
