import Sarracenia.Library.Dynamic

/-!
# Conversion of configurations (`sr_GlobalState.convert1` of `sarracenia/sr.py`)

From the lines of a v2 configuration to what is written for each of them in the first and in the second pass. The log is left
out, but for what makes a line one that needs manual conversion.
-/
namespace Sarracenia.Source.Conversion
open Library Library.Text Library.Dynamic

/-! ## Tables -/

/-- `Config.synonyms`: old names and the right ones. -/
def synonyms : List (String × String) := [
  ("a", "action"), ("accel_cp_command", "accelCpCommand"), ("accel_scp_command", "accelScpCommand"),
  ("accel_wget_command", "accelWgetCommand"), ("accel_cp_threshold", "accelThreshold"),
  ("accel_scp_threshold", "accelThreshold"), ("accel_wget_threshold", "accelThreshold"),
  ("accel_threshold", "accelThreshold"), ("accept_unmatch", "acceptUnmatched"),
  ("accept_unmatched", "acceptUnmatched"), ("at", "attempts"), ("b", "broker"), ("bd", "baseDir"),
  ("basedir", "baseDir"), ("base_dir", "baseDir"), ("baseurl", "baseUrl"), ("bind_queue", "queueBind"),
  ("blocksize", "blockSize"), ("bufsize", "bufSize"), ("cache", "nodupe_ttl"), ("c", "include"),
  ("cb", "nodupe_basis"), ("cache_basis", "nodupe_basis"), ("caching", "nodupe_ttl"), ("chmod", "permDefault"),
  ("chmod_dir", "permDirDefault"), ("chmod_log", "permLog"), ("content", "inline"),
  ("content_encoding", "inlineEncoding"), ("content_max", "inlineByteMax"), ("d", "discard"),
  ("declare_exchange", "exchangeDeclare"), ("declare_queue", "queueDeclare"), ("default_mode", "permDefault"),
  ("default_dir_mode", "permDirDefault"), ("default_log_mode", "permLog"), ("destination_timezone", "timezone"),
  ("document_root", "documentRoot"), ("download-and-discard", "discard"), ("download_cp_command", "accelCpCommand"),
  ("e", "fileEvents"), ("events", "fileEvents"), ("ex", "exchange"), ("exchange_split", "exchangeSplit"),
  ("exchange_suffix", "exchangeSuffix"), ("expiry", "expire"), ("file_time_limit", "fileAgeMax"),
  ("nodupe_fileAgeMax", "fileAgeMax"), ("nodupe_fileAgeMin", "fileAgeMin"), ("fp", "force_polling"),
  ("fs", "follow_symlinks"), ("h", "help"), ("heartbeat", "housekeeping"),
  ("hb_memory_baseline_file", "MemoryBaseLineFile"), ("hb_memory_max", "MemoryMax"),
  ("hb_memory_multiplier", "MemoryMultiplier"), ("imx", "inlineByteMax"), ("inl", "inline"),
  ("inline_encoding", "inlineEncoding"), ("inline_max", "inlineByteMax"), ("instance", "instances"),
  ("lock", "inflight"), ("log_format", "logFormat"), ("ll", "logLevel"), ("loglevel", "logLevel"),
  ("log_reject", "logReject"), ("logdays", "logRotateCount"), ("log_rotate", "logRotateCount"),
  ("logRotate", "logRotateCount"), ("logRotate_interval", "logRotateInterval"), ("message-ttl", "post_messageAgeMax"),
  ("message_ttl", "post_messageAgeMax"), ("msg_replace_new_dir", "pathReplace"),
  ("msg_filter_wmo2msc_replace_dir", "filter_wmo2msc_replace_dir"),
  ("msg_filter_wmo2msc_uniquify", "filter_wmo2msc_uniquify"), ("msg_filter_wmo2msc_tree", "filter_wmo2msc_treeify"),
  ("msg_filter_wmo2msc_convert", "filter_wmo2msc_convert"), ("msg_fdelay", "fdelay"), ("n", "no_download"),
  ("nd", "nodupe_ttl"), ("no_duplicates", "nodupe_ttl"), ("o", "overwrite"), ("on_msg", "on_message"), ("p", "path"),
  ("pm", "permCopy"), ("post_base_dir", "post_baseDir"), ("post_basedir", "post_baseDir"),
  ("post_base_url", "post_baseUrl"), ("post_baseurl", "post_baseUrl"), ("post_document_root", "post_documentRoot"),
  ("post_exchange_split", "post_exchangeSplit"), ("post_exchange_suffix", "post_exchangeSuffix"),
  ("post_rate_limit", "messageRateMax"), ("post_topic_prefix", "post_topicPrefix"), ("preserve_mode", "permCopy"),
  ("preserve_time", "timeCopy"), ("pt", "timeCopy"), ("qn", "queueName"), ("queue", "queueName"),
  ("queue_name", "queueName"), ("realpath", "realpathPost"), ("realpath_filter", "realpathFilter"),
  ("realpath_post", "realpathPost"), ("remoteUrl", "sendTo"), ("report_back", "report"),
  ("sanity_log_dead", "runStateThreshold_hung"), ("sd", "nodupe_ttl"), ("sdb", "nodupe_basis"),
  ("simulate", "dry_run"), ("simulation", "dry_run"), ("source_from_exchange", "sourceFromExchange"),
  ("sum", "identity"), ("suppress_duplicates", "nodupe_ttl"), ("suppress_duplicates_basis", "nodupe_basis"),
  ("tls_rigour", "tlsRigour"), ("topic_prefix", "topicPrefix")]

/-- What a v2 keyword becomes: the words of a line, or those by its first argument. -/
inductive Keyword where
  | list (words : List String)
  | table (entries : List (String × List String))
  deriving DecidableEq

def convert_to_v3 : List (String × Keyword) := [
  ("cache_stat", .list ["continue"]),
  ("cluster_aliases", .list ["continue"]),
  ("discard", .list ["delete_destination", "on"]),
  ("from_cluster", .list ["continue"]),
  ("to_clusters", .list ["continue"]),
  ("identity", .table [
    ("n", ["identity", "none"]), ("s", ["identity", "sha512"]), ("d", ["identity", "md5"]),
    ("a", ["identity", "arbitrary"]), ("r", ["identity", "random"]), ("z,d", ["identity", "cod,md5"]),
    ("z,s", ["identity", "cod,sha512"]), ("z,n", ["identity", "none"])]),
  ("ls_file_index", .list ["continue"]),
  ("plugin", .table [
    ("msg_fdelay", ["callback", "filter.fdelay"]), ("msg_pclean_f90", ["callback", "filter.pclean_f90.PClean_F90"]),
    ("msg_pclean_f92", ["callback", "filter.pclean_f92.PClean_F92"]), ("accel_wget", ["continue"]),
    ("accel_scp", ["continue"]), ("accel_cp", ["continue"]), ("msg_total_save", ["continue"]),
    ("file_total_save", ["continue"]), ("post_total_save", ["continue"])]),
  ("destfn_script", .table [("manual_conversion_required", ["continue"])]),
  ("do_get", .table [("manual_conversion_required", ["continue"])]),
  ("do_poll", .table [("manual_conversion_required", ["continue"])]),
  ("do_put", .table [("manual_conversion_required", ["continue"])]),
  ("do_download", .table [("manual_conversion_required", ["continue"])]),
  ("do_send", .table [("file_email", ["callback", "send.email"])]),
  ("do_task", .table [("manual_conversion_required", ["continue"])]),
  ("file_total_interval", .list ["continue"]),
  ("post_total_interval", .list ["continue"]),
  ("post_log_format", .list ["continue"]),
  ("msg_total_interval", .list ["continue"]),
  ("no_download", .list ["download", "False"]),
  ("notify_only", .list ["download", "False"]),
  ("do_data", .table [("manual_conversion_required", ["continue"])]),
  ("on_file", .table [("file_age", ["callback", "work.age"])]),
  ("on_heartbeat", .table [("manual_conversion_required", ["continue"])]),
  ("on_html_page", .table [("manual_conversion_required", ["continue"])]),
  ("on_part", .table [("manual_conversion_required", ["continue"])]),
  ("on_line", .table [("manual_conversion_required", ["continue"])]),
  ("on_message", .table [
    ("msg_by_source", ["continue"]), ("msg_by_user", ["continue"]),
    ("msg_delete", ["callback", "filter.deleteflowfiles.DeleteFlowFiles"]), ("msg_download", ["continue"]),
    ("msg_dump", ["continue"]), ("msg_log", ["logEvents", "+after_accept"]),
    ("msg_print_lag", ["callback", "accept.printlag.PrintLag"]), ("msg_rawlog", ["logEvents", "+after_accept"]),
    ("msg_total", ["continue"]), ("msg_replace_new_dir", ["callback", "accept.pathreplace"]),
    ("msg_skip_old", ["callback", "accept.skipold.SkipOld"]),
    ("msg_test_retry", ["callback", "accept.testretry.TestRetry"]),
    ("msg_to_clusters", ["callback", "accept.toclusters.ToClusters"]), ("msg_save", ["callback", "accept.save"]),
    ("msg_2localfile", ["callback", "accept.tolocalfile.ToLocalFile"]),
    ("msg_rename_whatfn", ["callback", "accept.renamewhatfn.RenameWhatFn"]),
    ("msg_rename_dmf", ["callback", "accept.renamedmf.RenameDMF"]),
    ("msg_hour_tree", ["callback", "accept.hourtree.HourTree"]),
    ("msg_renamer", ["callback", "accept.renamer.Renamer"]),
    ("msg_http_to_https", ["callback", "accept.httptohttps.HttpToHttps"]),
    ("msg_speedo", ["callback", "accept.speedo.Speedo"]),
    ("msg_WMO_type_suffix", ["callback", "accept.wmotypesuffix.WmoTypeSuffix"]),
    ("msg_sundew_pxroute", ["callback", "accept.sundewpxroute.SundewPxRoute"]),
    ("msg_rename4jicc", ["flow_callback", "accept.rename4jicc.Rename4Jicc"]),
    ("msg_delay", ["callback", "accept.messagedelay.MessageDelay"]),
    ("msg_download_baseurl", ["callback", "accept.downloadbaseurl.DownloadBaseUrl"]),
    ("msg_from_cluster", ["continue"]), ("msg_stdfiles", ["continue"]), ("msg_fdelay", ["callback", "filter.fdelay"]),
    ("msg_stopper", ["continue"]), ("msg_overwrite_sum", ["continue"]), ("msg_gts2wistopic", ["continue"])]),
  ("on_report", .table [("manual_conversion_required", ["continue"])]),
  ("on_stop", .table [("manual_conversion_required", ["continue"])]),
  ("on_start", .table [("manual_conversion_required", ["continue"])]),
  ("on_watch", .table [("manual_conversion_required", ["continue"])]),
  ("on_post", .table [
    ("post_log", ["logEvents", "+after_work"]), ("post_total", ["continue"]),
    ("wmo2msc", ["callback", "filter.wmo2msc.Wmo2Msc"]),
    ("post_hour_tree", ["callback", "accept.posthourtree.PostHourTree"]),
    ("post_long_flow", ["callback", "accept.longflow.LongFLow"]),
    ("post_override", ["callback", "accept.postoverride.PostOverride"]), ("post_rate_limit", ["continue"]),
    ("to", ["continue"])]),
  ("parts", .list ["continue"]),
  ("poll_without_vip", .list ["manual_conversion_required"]),
  ("pump", .list ["continue"]),
  ("pump_flag", .list ["continue"]),
  ("reconnect", .list ["continue"]),
  ("report_daemons", .list ["continue"]),
  ("restore", .list ["continue"]),
  ("retry_mode", .list ["continue"]),
  ("save", .list ["continue"]),
  ("set_passwords", .list ["continue"]),
  ("windows_run", .list ["continue"]),
  ("xattr_disable", .list ["continue"])]

def convert_patterns_to_v3 : List (String × String) := [
  ("$\x7bYYYYMMDD-1D", "$\x7b%o-1d%Y%m%d"), ("$\x7bYYYYMMDD-2D", "$\x7b%o-2d%Y%m%d"),
  ("$\x7bYYYYMMDD", "$\x7b%Y%m%d"), ("$\x7bYYYY", "$\x7b%Y"), ("$\x7bJJJ", "$\x7b%j"), ("$\x7bHH", "$\x7b%H"),
  ("$\x7bDD", "$\x7b%d"), ("$\x7bMM", "$\x7b%m"), ("$\x7bSS", "$\x7b%S")]

/-- `sum_algo_v2tov3` of `sarracenia/flowcb/v2wrapper.py` -/
def sum_algo_v2tov3 : List (String × String) := [
  ("a", "arbitrary"), ("d", "md5"), ("s", "sha512"), ("n", "md5name"), ("0", "random"), ("L", "link"), ("R", "remove"),
  ("z", "cod")]

def verbs_to_move : List String := ["auto_delete", "durable", "expire", "message_ttl", "prefetch", "qos", "queueBind", "exchangeDeclare"]

/-- Options whose values are sets: the names are added to the default. -/
def sets : List String := ["logEvents", "fileEvents"]

def sums : List String := ["identity", "integrity"]

def lookup {α : Type} (table : List (String × α)) (k : Str) : Option α := (table.find? fun e => e.1.toList = k).map (·.2)

/-- The right name of an option. -/
def resolve (k : Str) : Str := (lookup synonyms k).elim k String.toList

/-- `k` is one of some names. -/
def among (names : List String) (k : Str) : Bool := names.any fun name => name.toList = k

/-! ## One line -/

/-- A line of the new file that is made from one of the old, and what is written before it. -/
structure Line where
  before : List Str
  k : Str
  args : List Str
  problem : Bool

/-- What becomes of a line: it is passed over, or written. -/
inductive Fate where
  | obsolete | unknown_checksum | accept_all | acceptUnmatched (explicit : Str) | continue_
  | written (line : Line)

/-- Further with what is to be written. -/
def Fate.andThen (f : Line → Except Fault Fate) : Except Fault Fate → Except Fault Fate
  | .ok (.written line) => f line
  | other => other

def poll : Str := "poll".toList

/-- An accepting pattern that is searched for anywhere. -/
def fromAnywhere : Str → Str
  | '.' :: '*' :: pattern => '.' :: '*' :: pattern
  | '^' :: pattern => ".*/".toList ++ pattern
  | pattern => ".*".toList ++ pattern

/-- The sum in the words of sr3, if it is known. -/
def checksum (sum : Str) : Except Fault (Option Str) :=
  match sum with
  | [] => .error .indexError
  | c :: _ =>
    match lookup sum_algo_v2tov3 [c] with
    | none => .ok none
    | some "cod" =>
      match sum[3]? with
      | none => .error .indexError
      | some d => .ok ((lookup sum_algo_v2tov3 [d]).map fun value => "cod,".toList ++ value.toList)
    | some _ => .ok (some sum)

section Steps
variable (component : Str)

/-- Names and arguments that changed. -/
def renamed (line : Line) : Except Fault Fate :=
  if line.k = "destination".toList then
    if component = poll then .ok (.written { line with k := "pollUrl".toList, before := ["permCopy off\n".toList] })
    else .ok (.written { line with k := "sendTo".toList })
  else if line.k = "get".toList ∧ component = poll then
    match line.args with
    | [] => .error .indexError
    | pattern :: rest => .ok (.written { line with k := "accept".toList, args := fromAnywhere pattern :: rest })
  else if line.k = "broker".toList ∧ component = poll then .ok (.written { line with k := "post_broker".toList })
  else if line.k = "directory".toList ∧ component = poll then .ok (.written { line with k := "path".toList })
  else if among sums line.k then
    match line.args with
    | [] => .error .indexError
    | sum :: rest => (checksum sum).map fun value => value.elim .unknown_checksum fun sum => .written { line with args := sum :: rest }
  else .ok (.written line)

/-- Options that are treated in a way of their own. -/
def adjusted (line : Line) : Except Fault Fate :=
  if line.k = "accept".toList then
    match line.args with
    | [] => .error .indexError
    | pattern :: _ => if pattern = ".*".toList then .ok .accept_all else .ok (.written line)
  else if line.k = "acceptUnmatched".toList then
    match line.args with
    | [] => .error .indexError
    | explicit :: _ => .ok (.acceptUnmatched explicit)
  else if line.k = "strip".toList ∧ among ["post", "watch"] component then
    .ok (.written { line with
      k := "\n# strip".toList
      before := line.before ++ ["# Commenting strip option because it shouldn't be used in a post config in sr3. ".toList ++
        "See https://github.com/MetPX/sarracenia/issues/1506".toList] })
  else if line.k = "post_baseUrl".toList then
    match line.args with
    | [] => .error .indexError
    | url :: rest => .ok (.written { line with args := (if url.getLast? = some '/' then url else url ++ ['/']) :: rest })
  else if line.k = "sleep".toList ∧ component = poll then .ok (.written { line with k := "scheduled_interval".toList })
  else .ok (.written line)

/-- By the table of old keywords; `verb` is the name as it was given. -/
def replaced (verb : Str) (line : Line) : Except Fault Fate :=
  match lookup convert_to_v3 line.k with
  | none => .ok (.written line)
  | some (.list ["continue"]) => .ok .obsolete
  | some keyword =>
    match line.args with
    | argument :: _ =>
      let v := replaceFirst ".py".toList [] argument
      let unknown := { line with
        k := verb
        before := line.before ++
          ["# PROBLEM: unknown ".toList ++ line.k ++ ' ' :: v ++ ", manual conversion required.\n".toList]
        problem := true }
      match keyword with
      | .list words => if among words v then .error .typeError else .ok (.written unknown)
      | .table entries =>
        match lookup entries v with
        | none => .ok (.written unknown)
        | some words =>
          if "continue" ∈ words then .ok .obsolete
          else match words with
            | [] => .ok (.written { line with k := [], args := [] })
            | name :: values => .ok (.written { line with k := name.toList, args := values.map String.toList })
    | [] =>
      match keyword with
      | .list (name :: value :: values) => .ok (.written { line with k := name.toList, args := (value :: values).map String.toList })
      | .list _ => .error .indexError
      | .table _ => .error .keyError

/-- A set that is to be added to the default. -/
def added (k : Str) (line : Line) : Except Fault Fate :=
  if among sets k then
    match line.args with
    | [] => .error .indexError
    | events :: rest =>
      if occurs "none".toList (events.map Char.toLower) then .ok (.written line)
      else match events with
        | [] => .error .indexError
        | c :: _ => .ok (.written { line with args := (if c = '+' ∨ c = '-' then events else '+' :: events) :: rest })
  else .ok (.written line)

/-- `while p in value: value = value.replace(p, q)`: where it was replaced, nothing is left of a pattern. -/
def replacePattern (value : Str) (p : String × String) : Str := replaceAll p.1.toList p.2.toList value

/-- Dates in the first argument. -/
def dated : List Str → List Str
  | [] => []
  | value :: rest => convert_patterns_to_v3.foldl replacePattern value :: rest

/-- The name that is kept of a line while it is converted: a line of the table does not change it. -/
def nameOf (line after : Line) : Str := if line.args = [] then after.k else line.k

/-- From the table of old keywords to the end. -/
def finished (verb : Str) (line : Line) : Except Fault Fate :=
  replaced verb line |> Fate.andThen fun after =>
    added (nameOf line after) after |> Fate.andThen fun after =>
      if nameOf line after = "continue".toList then .ok .continue_ else .ok (.written { after with args := dated after.args })

/-- One line of the second pass, but for the queue. -/
def rewrite (verb : Str) (args : List Str) : Except Fault Fate :=
  (renamed component ⟨[], resolve verb, args, false⟩ |> Fate.andThen (adjusted component)) |> Fate.andThen (finished verb)

end Steps

/-! ## Two passes -/

/-- What is written: a text, a line as it was with another line end, or a line that was made. -/
inductive Write where
  | text (s : Str)
  | input (l : Str)
  | line (l : Line)

def Write.render : Write → Str
  | text s => s
  | input l => l ++ ['\n']
  | line l => join [' '] (l.k :: l.args) ++ ['\n']

structure First where
  post_broker_seen : Bool
  inflight_seen : Bool
  queueName : Option Str

def moving : Str :=
  " \n#\n#Move formerly global options (".toList ++ join [','] (verbs_to_move.map String.toList) ++ " to start of config file.\n".toList

/-- A line in the first pass. -/
def firstPass (s : First) (input_line : Str) : Except Fault (First × List Write) :=
  match words input_line with
  | [] => .ok (s, [])
  | verb :: args =>
    if input_line.head? = some '#' then .ok (s, [])
    else
      let k := resolve verb
      let s := { s with
        post_broker_seen := s.post_broker_seen || k = "post_broker".toList
        inflight_seen := s.inflight_seen || k = "inflight".toList }
      let moved := if among verbs_to_move k then [.text moving, .input input_line] else []
      if k = "queueName".toList then
        match args with
        | [] => .error .indexError
        | name :: _ => .ok ({ s with queueName := some name }, moved)
      else .ok (s, moved)

structure Second where
  queueName : Option Str
  accept_all_seen : Bool
  acceptUnmatched_explicit : Option Str
  pos_args_present : Bool

/-- `\${[0-9]}` is in the text. -/
def positional (s : Str) : Bool := s.tails.any fun
  | '$' :: '{' :: d :: '}' :: _ => '0' ≤ d && d ≤ '9'
  | _ => false

/-- A line that is written. -/
def Second.write (s : Second) (line : Line) : Second × List Write :=
  let before := line.before.map .text
  if !s.pos_args_present && positional (join [' '] line.args) then
    ({ s with pos_args_present := true }, before ++ [.text "sundew_compat_regex_first_match_is_zero True\n".toList, .line line])
  else (s, before ++ [.line line])

section Passes
variable (component : Str)

/-- A line in the second pass. -/
def secondPass (s : Second) (line : Str) : Except Fault (Second × List Write) :=
  match words line with
  | [] => .ok (s, [.text ['\n']])
  | verb :: args =>
    if line.head? = some '#' then .ok (s, [.text line])
    else if among verbs_to_move verb then .ok (s, [])
    else if resolve verb = "queueName".toList ∧ s.queueName = none then .ok (s, [])
    else
      let queue : List Write := if resolve verb = "subtopic".toList then
          (s.queueName.map fun name => Write.text ("queueName ".toList ++ name ++ ['\n'])).toList else []
      let s := if resolve verb = "subtopic".toList then { s with queueName := none } else s
      (rewrite component verb args).map fun
        | .written line => ((s.write line).1, queue ++ (s.write line).2)
        | .accept_all => ({ s with accept_all_seen := true }, queue)
        | .acceptUnmatched explicit => ({ s with acceptUnmatched_explicit := some explicit }, queue)
        | .obsolete | .unknown_checksum | .continue_ => (s, queue)

/-- A pass over all lines, with what is written for each. -/
def pass {σ : Type} (f : σ → Str → Except Fault (σ × List Write)) : σ → List Str → Except Fault (σ × List (List Write))
  | s, [] => .ok (s, [])
  | s, l :: lines => do
    let (s, writes) ← f s l
    let (s, rest) ← pass f s lines
    return (s, writes :: rest)

/-- The new file. -/
structure Converted where
  heading : List Write
  moved : List (List Write)
  inflight : List Write
  rewritten : List (List Write)
  ending : List Write

def Converted.writes (c : Converted) : List Write :=
  c.heading ++ c.moved.flatten ++ c.inflight ++ c.rewritten.flatten ++ c.ending

def Converted.text (c : Converted) : Str := (c.writes.map Write.render).flatten

def heading (cfg : Str) : List Write :=
  [.text ("# created by: sr3 convert ".toList ++ cfg ++ ['\n'])] ++
  (if among ["shovel", "winnow"] component then
    [.text "# topicCopy on is only there for bug-for-bug compat with v2. Leave it off if you can.\n".toList, .text "#topicCopy on\n".toList]
  else []) ++
  (if among ["sarra", "sender", "subscribe"] component then
    [.text (" \n#\n#v2 sftp handling is always absolute, sr3 is relative. might need this, ".toList ++
      "remove when all sr3:\n".toList), .text "#flowcb accept.sftp_absolute\n".toList]
  else [])

def inflight (s : First) : List Write :=
  if !s.inflight_seen && s.post_broker_seen && among ["sarra", "sender", "subscribe"] component then
    [.text " \n#\n#sr3 inflight defaults to None, v2 defaulted to .tmp when post_broker set.\n".toList, .text "inflight .tmp\n".toList]
  else []

def ending (s : Second) : List Write :=
  if s.accept_all_seen then []
  else match s.acceptUnmatched_explicit with
    | some explicit => [.text ("acceptUnmatched ".toList ++ explicit)]
    | none => if among ["subscribe", "poll", "sender"] component then [.text "acceptUnmatched False".toList] else []

/-- `convert1`, of the lines of the old file. -/
def convert1 (cfg : Str) (lines : List Str) : Except Fault Converted := do
  let (first, moved) ← pass firstPass ⟨false, false, none⟩ lines
  let (second, rewritten) ← pass (secondPass component) ⟨first.queueName, false, none, false⟩ lines
  return {
    heading := heading component cfg
    moved := moved
    inflight := inflight component first
    rewritten := rewritten
    ending := ending component second }

end Passes
end Sarracenia.Source.Conversion
