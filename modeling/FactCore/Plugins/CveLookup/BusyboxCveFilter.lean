import FactCore.Lib.Search
import FactCore.Plugins.CveLookup.CoerceVersion
import FactCore.Plugins.CveLookup.CveDatabase

/-! # CVEs of BusyBox tools that are not built in

`internal/busybox_cve_filter.py` of the plugin `cve_lookup`. A BusyBox binary
contains some of the tools only, so a CVE whose summary names tools is dropped
if none of them is found in the binary. What the patterns match is compared
with the names that were found.
-/

namespace FactCore

namespace CveLookup

variable (u : UnicodeTables)

/-! ## The tools in the binary -/

/-- The names of `TOOLS_START_OFFSET_REGEX`. -/
def startNames : List String :=
  ["[", "[[", "acping", "addgroup", "adduser", "adjtimex", "ar", "arp", "arping", "ash", "awk",
    "basename", "busybox", "cat", "df"]

def asciiBytes (name : String) : List UInt8 := name.toList.map fun c => UInt8.ofNat c.toNat

/-- `[a-zA-Z0-9\[_.-]` -/
def isNameByte (b : UInt8) : Bool :=
  (97 ≤ b && b ≤ 122) || (65 ≤ b && b ≤ 90) || (48 ≤ b && b ≤ 57) || b == 91 || b == 95 || b == 46 ||
    b == 45

/-- `\x00{1,7}`, as many as there are. -/
def spanPadding (content : List UInt8) : List UInt8 := (content.take 7).takeWhile (· == 0)

/-- One name of `TOOLS_START_OFFSET_REGEX` with its padding; what follows it. -/
def dropStartName (content : List UInt8) : Option (List UInt8) :=
  (startNames.find? fun name =>
      asciiBytes name <+: content ∧ spanPadding (content.drop (asciiBytes name).length) ≠ []).map
    fun name => (content.drop (asciiBytes name).length).drop
      (spanPadding (content.drop (asciiBytes name).length)).length

/-- `TOOLS_START_OFFSET_REGEX` matches here. -/
def startsTools (content : List UInt8) : Bool := ((dropStartName content).bind dropStartName).isSome

/-- One round of `TOOL_NAME_REGEX`: a name with its padding, and the rest. -/
def spanTool (content : List UInt8) : Option (List UInt8 × List UInt8) :=
  let name := content.takeWhile isNameByte
  let padding := spanPadding (content.drop name.length)
  if name = [] ∨ padding = [] then none
  else some (name ++ padding, (content.drop name.length).drop padding.length)

/-- The match of `TOOL_NAME_REGEX`, with a bound on the number of names. -/
def toolBlock : Nat → List UInt8 → List UInt8
  | 0, _ => []
  | n + 1, content =>
      match spanTool content with
      | none => []
      | some (tool, rest) => tool ++ toolBlock n rest

/-- `TOOL_NAME_CHARS` -/
def isToolNameChar (c : Char) : Bool := Pep440.isLetter c || c == '['

/-- `_find_tools` -/
def findTools (toolStrBlock : List UInt8) : List String :=
  let names := (toolStrBlock.splitOn 0).map fun entry =>
    String.ofList (entry.map fun b => Char.ofNat b.toNat)
  let tools := (names.filter fun name => name.toList.head?.any isToolNameChar).dedup
  if tools.length < 5 then [] else tools.insertionSort (· ≤ ·)

/-- The loop of `get_busybox_components`, after some bytes were skipped. -/
def componentsFrom : Nat → List UInt8 → List String
  | _, [] => []
  | skip + 1, _ :: rest => componentsFrom skip rest
  | 0, b :: rest =>
      if startsTools (b :: rest) then
        let tools := findTools (toolBlock (b :: rest).length (b :: rest))
        if tools = [] then componentsFrom 1 rest else tools
      else componentsFrom 0 rest

/-- `get_busybox_components` for the content of the file. -/
def getBusyboxComponents (content : List UInt8) : List String := componentsFrom 0 content

/-! ## The patterns -/

/-- `GROUP_1` -/
def group1 : List String :=
  ["break", "case", "date", "busybox", "command", "continue", "cut", "done", "do", "else", "exit",
    "expand", "export", "eject", "find", "factor", "fold", "free", "function", "groups", "help",
    "in", "ip", "length", "last", "more", "set", "source", "then", "time", "type", "until",
    "which", "while", "wait", "read", "login", "return", "users", "reboot", "less", "history",
    "yes", "sync", "install", "head", "paste", "if", "id", "route", "patch", "local", "ping",
    "resume", "resize", "reset", "parse", "shift", "sleep", "sort", "trap", "who", "wall",
    "watchdog", "kill", "man", "script", "clear", "unset", "unzip", "link", "let", "init"]

/-- `GROUP_2` -/
def group2 : List String :=
  ["acpid", "add-shell", "addgroup", "adduser", "adjtimex", "alias", "ar", "arch", "arp", "arping",
    "ascii", "ash", "awk", "base32", "base64", "basename", "bash", "bbconfig", "bc", "beep", "bg",
    "blkdiscard", "blkid", "blockdev", "bootchartd", "brctl", "bunzip2", "bzcat", "bzip2", "cal",
    "cat", "catv", "cd", "chat", "chattr", "chcon", "chdir", "chgrp", "chmod", "chown", "chpasswd",
    "chpst", "chroot", "chrt", "chvt", "cksum", "cmp", "comm", "conspy", "cp", "cpio", "crc32",
    "crond", "crontab", "cryptpw", "cttyhack", "dc", "dd", "deallocvt", "delgroup", "deluser",
    "depmod", "devfsd", "devmem", "df", "dhcprelay", "diff", "dirname", "dmesg", "dnsd",
    "dnsdomainname", "dos2unix", "dot", "dpkg", "dpkg-deb", "du", "dumpkmap", "dumpleases",
    "e2fsck", "e2label", "echo", "ed", "egrep", "elif", "env", "envdir", "envuidgid", "esac",
    "ether-wake", "eval", "exec", "expr", "fakeidentd", "fallocate", "FALSE", "fatattr", "fbset",
    "fbsplash", "fdflush", "fdformat", "fdisk", "fg", "fgconsole", "fgrep", "fi", "findfs",
    "flashcp", "flash_eraseall", "flash_lock", "flash_unlock", "flock", "fold", "freeramdisk",
    "fsck", "fsck.ext2", "fsck.ext3", "fsck.minix", "fsfreeze", "fstrim", "fsync", "ftpd",
    "ftpget", "ftpput", "fuser", "getenforce", "getopt", "getopts", "getsebool", "getty", "grep",
    "gunzip", "gzip", "halt", "hash", "hd", "hdparm", "hexdump", "hexedit", "hostid", "hostname",
    "httpd", "hush", "hwclock", "i2cdetect", "i2cdump", "i2cget", "i2cset", "i2ctransfer",
    "ifconfig", "ifdown", "ifenslave", "ifplugd", "ifup", "inetd", "inotifyd", "insmod", "ionice",
    "iostat", "ipaddr", "ipcalc", "ipconfig", "ipcrm", "ipcs", "iplink", "ipneigh", "iproute",
    "iprule", "iptunnel", "jobs", "kbd_mode", "killall", "killall5", "klogd", "linux32", "linux64",
    "linuxrc", "ln", "loadfont", "loadkmap", "load_policy", "logger", "logname", "logread",
    "losetup", "lpd", "lpq", "lpr", "ls", "lsattr", "lsmod", "lsof", "lspci", "lsscsi", "lsusb",
    "lzcat", "lzma", "lzop", "lzopcat", "makedevs", "makemime", "matchpathcon", "md5sum", "mdev",
    "mesg", "microcom", "mim", "minips", "mkdir", "mkdosfs", "mke2fs", "mkfifo", "mkfs.ext2",
    "mkfs.ext3", "mkfs.minix", "mkfs.reiser", "mkfs.vfat", "mknod", "mkpasswd", "mkswap", "mktemp",
    "modinfo", "modprobe", "mount", "mountpoint", "mpstat", "mt", "mu", "mv", "nameif", "nanddump",
    "nandwrite", "nbd-client", "nc", "netcat", "netstat", "nice", "nl", "nmeter", "nohup",
    "nologin", "nproc", "nsenter", "nslookup", "ntpd", "nuke", "od", "openvt", "partprobe",
    "passwd", "pgrep", "pidof", "ping6", "pipe_progress", "pivot_root", "pkill", "pmap",
    "popmaildir", "poweroff", "powertop", "printenv", "printf", "ps", "pscan", "pstree", "pwd",
    "pwdx", "raidautorun", "rdate", "rdev", "readahead", "readlink", "readonly", "readprofile",
    "realpath", "reformime", "remove-shell", "renice", "restorecon", "rev", "rfkill", "rm",
    "rmdir", "rmmod", "rpm", "rpm2cpio", "rtcwake", "run-init", "run-parts", "runcon", "runlevel",
    "runsv", "runsvdir", "run_parts", "rx", "scriptreplay", "sed", "seedrng", "selinuxenabled",
    "sendarp", "sendmail", "seq", "sestatus", "setarch", "setconsole", "setenforce", "setfattr",
    "setfiles", "setfont", "setkeycodes", "setlogcons", "setpriv", "setsebool", "setserial",
    "setsid", "setuidgid", "sh", "sha1sum", "sha256sum", "sha3sum", "sha512sum", "showkey",
    "shred", "shuf", "slattach", "smemcap", "softlimit", "split", "ssl_client",
    "start-stop-daemon", "stat", "strings", "stty", "su", "sulogin", "sum", "sv", "svc", "svlogd",
    "svok", "swapoff", "swapon", "switch_root", "sysctl", "syslogd", "tac", "tail", "tar",
    "taskset", "tc", "tcpsvd", "tee", "telnet", "telnetd", "test", "tftp", "tftpd", "timeout",
    "times", "top", "touch", "tr", "traceroute", "traceroute6", "tree", "TRUE", "truncate", "ts",
    "tsort", "tty", "ttysize", "tunctl", "tune2fs", "ubiattach", "ubidetach", "ubimkvol",
    "ubirename", "ubirmvol", "ubirsvol", "ubiupdatevol", "udhcpc", "udhcpc6", "udhcpd", "udpsvd",
    "uevent", "ulimit", "umask", "umount", "unalias", "uname", "uncompress", "unexpand", "uniq",
    "unit", "unix2dos", "unlink", "unlzma", "unlzop", "unshare", "unxz", "uptime", "usleep",
    "uudecode", "uuencode", "vconfig", "vi", "vlock", "volname", "w", "wc", "wget", "whoami",
    "whois", "xargs", "xxd", "xz", "xzcat", "zcat", "zcip"]

/-- There is a character, and it is part of a word. -/
def wordAt (c : Option Char) : Bool := c.any u.isWord

/-- A pattern of `PATTERNS_1` at a position, `(?:")word(?:-|")`. -/
def matchQuoted (word : List Char) (_ : Option Char) (s : List Char) : Option (List Char) :=
  if ('"' :: word ++ ['-']) <+: s then some ('"' :: word ++ ['-'])
  else if ('"' :: word ++ ['"']) <+: s then some ('"' :: word ++ ['"'])
  else none

/-- `(?:\b|-)` behind a word. -/
def matchEnd (last : Option Char) (s : List Char) : Option (List Char) :=
  if wordAt u last ≠ wordAt u s.head? then some []
  else if s.head? = some '-' then some ['-']
  else none

/-- A pattern of `PATTERNS_2` at a position, `(?:\b|_)word(?:\b|-)`. -/
def matchWord (word : List Char) (before : Option Char) (s : List Char) : Option (List Char) :=
  let bare :=
    if wordAt u before ≠ wordAt u s.head? ∧ word <+: s then
      (matchEnd u word.getLast? (s.drop word.length)).map fun stop => word ++ stop
    else none
  let behind :=
    if '_' :: word <+: s then
      (matchEnd u word.getLast? (s.drop (word.length + 1))).map fun stop => '_' :: word ++ stop
    else none
  bare.or behind

/-- `get_matched_words` -/
def getMatchedWords (cveData : String) : List String :=
  (group1.filterMap fun word => Search.search (matchQuoted word.toList) cveData.toList).map String.ofList ++
    (group2.filterMap fun word => Search.search (matchWord u word.toList) cveData.toList).map String.ofList

/-- The CVE is kept by `filter_cves_by_component`. -/
def keepsCve (components : List String) (cve : Cve) : Bool :=
  getMatchedWords u cve.summary = [] || (getMatchedWords u cve.summary).any fun word => word ∈ components

/-- `filter_cves_by_component` -/
def filterCvesByComponent (cves : Dict String Cve) (components : List String) : Dict String Cve :=
  cves.filter (keepsCve u components)

/-- `filter_busybox_cves` -/
def filterBusyboxCves (content : List UInt8) (cves : Dict String Cve) : Dict String Cve :=
  if getBusyboxComponents content = [] then cves
  else filterCvesByComponent u cves (getBusyboxComponents content)

/-! ## What a summary names -/

/-- The word stands in quotes; the second one may be a hyphen. -/
def Quoted (word s : List Char) : Prop :=
  ∃ a c b, s = a ++ ('"' :: word ++ c :: b) ∧ (c = '-' ∨ c = '"')

/-- The word stands alone, or behind an underscore. -/
def Mentioned (word s : List Char) : Prop :=
  ∃ a b, s = a ++ (word ++ b) ∧ (wordAt u a.getLast? = false ∨ a.getLast? = some '_') ∧
    wordAt u b.head? = false

/-- The word stands alone before it stands behind an underscore. -/
def MentionedBare (word s : List Char) : Prop :=
  ∃ a b, s = a ++ (word ++ b) ∧ wordAt u a.getLast? = false ∧ wordAt u b.head? = false ∧
    ∀ a' b', s = a' ++ ('_' :: word ++ b') → wordAt u b'.head? = false → a.length ≤ a'.length

/-- The summary names a tool of one of the groups. -/
def Names (tool : String) (summary : String) : Prop :=
  (tool ∈ group1 ∧ Quoted tool.toList summary.toList) ∨
    (tool ∈ group2 ∧ Mentioned u tool.toList summary.toList)

/-! ## The patterns of the first group -/

variable {u} {word s t : List Char} {before : Option Char}

theorem matchQuoted_eq_some (h : matchQuoted word before s = some t) :
    ∃ c b, s = '"' :: word ++ c :: b ∧ (c = '-' ∨ c = '"') ∧ t.head? = some '"' := by
  unfold matchQuoted at h
  split at h
  · rename_i hstarts
    obtain ⟨b, rfl⟩ := hstarts
    obtain rfl := Option.some.inj h
    exact ⟨'-', b, by simp, .inl rfl, rfl⟩
  · split at h
    · rename_i hstarts
      obtain ⟨b, rfl⟩ := hstarts
      obtain rfl := Option.some.inj h
      exact ⟨'"', b, by simp, .inr rfl, rfl⟩
    · cases h

theorem matchQuoted_ne_none {c : Char} {b : List Char} (hc : c = '-' ∨ c = '"') :
    matchQuoted word before ('"' :: word ++ c :: b) ≠ none := by
  unfold matchQuoted
  have hstarts : ('"' :: word ++ [c]) <+: '"' :: word ++ c :: b := ⟨b, by simp⟩
  rcases hc with rfl | rfl
  · rw [if_pos hstarts]
    simp
  · by_cases hyphen : ('"' :: word ++ ['-']) <+: '"' :: word ++ '"' :: b
    · rw [if_pos hyphen]
      simp
    · rw [if_neg hyphen, if_pos hstarts]
      simp

theorem search_quoted_eq_none : Search.search (matchQuoted word) s = none ↔ ¬ Quoted word s := by
  rw [Search.search_eq_none]
  constructor
  · rintro h ⟨a, c, b, heq, hc⟩
    exact matchQuoted_ne_none hc (h a _ heq)
  · intro h a b heq
    cases hmatch : matchQuoted word a.getLast? b with
    | none => rfl
    | some t =>
        obtain ⟨c, b', rfl, hc, -⟩ := matchQuoted_eq_some hmatch
        exact absurd ⟨a, c, b', heq, hc⟩ h

/-- What a pattern of the first group matches begins with a quote. -/
theorem search_quoted_head (h : Search.search (matchQuoted word) s = some t) :
    t.head? = some '"' := by
  obtain ⟨a, b, -, hmatch, -⟩ := Search.search_eq_some h
  obtain ⟨-, -, -, -, hhead⟩ := matchQuoted_eq_some hmatch
  exact hhead

/-! ## The patterns of the second group -/

/-- The word begins and ends with a letter or a digit. -/
def ProperWord (word : List Char) : Prop :=
  (word.head?.any fun c => Pep440.isDigit c || Pep440.isLetter c.toLower) = true ∧
    (word.getLast?.any fun c => Pep440.isDigit c || Pep440.isLetter c.toLower) = true

theorem properWord_cons {word : List Char} {tools : List String} (h : ProperWord word)
    (htools : ∀ tool ∈ tools, ProperWord tool.toList) :
    ∀ tool ∈ String.ofList word :: tools, ProperWord tool.toList := by
  rw [List.forall_mem_cons, String.toList_ofList]
  exact ⟨h, htools⟩

theorem properWord_group2 {tool : String} (h : tool ∈ group2) : ProperWord tool.toList := by
  have hall : ∀ tool ∈ group2, ProperWord tool.toList := by
    unfold group2
    -- word by word, since a literal is opened faster by unification than by `toList`
    repeat' first | exact List.forall_mem_nil _ | refine properWord_cons ⟨rfl, rfl⟩ ?_
  exact hall tool h

theorem isWord_of_alnum {c : Char}
    (h : (Pep440.isDigit c || Pep440.isLetter c.toLower) = true) : u.isWord c = true := by
  have hascii : c.toNat < 128 := by
    by_cases hupper : 65 ≤ c.toNat ∧ c.toNat ≤ 90
    · omega
    · rw [toLower_of_range hupper] at h
      rcases Bool.or_eq_true_iff.1 h with hdigit | hletter
      · exact (range_of_isVersionChar (Pep440.isVersionChar_of_isDigit hdigit)).2.1
      · exact (range_of_isVersionChar (Pep440.isVersionChar_of_isLetter hletter)).2.1
  rw [u.word_ascii c hascii, h, Bool.true_or]

theorem matchEnd_of_word {last : Option Char} (hlast : wordAt u last = true) :
    matchEnd u last s = if wordAt u s.head? = false then some [] else none := by
  unfold matchEnd
  rw [hlast]
  cases hnext : wordAt u s.head? with
  | false => simp
  | true =>
      have hhyphen : s.head? ≠ some '-' := by
        intro heq
        rw [heq] at hnext
        have hfalse : u.isWord '-' = false := by
          rw [u.word_ascii '-' (by decide)]
          decide
        rw [show wordAt u (some '-') = u.isWord '-' from rfl, hfalse] at hnext
        cases hnext
      simp [hhyphen]

/-- A pattern of the second group matches the word alone, or with an underscore
in front of it. -/
theorem matchWord_eq (hword : ProperWord word) : matchWord u word before s =
    if word <+: s ∧ wordAt u before = false ∧ wordAt u (s.drop word.length).head? = false then some word
    else if '_' :: word <+: s ∧ wordAt u (s.drop (word.length + 1)).head? = false then some ('_' :: word)
    else none := by
  obtain ⟨hfirst, hlast⟩ := hword
  obtain ⟨c, tail, rfl⟩ : ∃ c tail, word = c :: tail := by
    cases word with
    | nil => cases hfirst
    | cons c tail => exact ⟨c, tail, rfl⟩
  have hc : u.isWord c = true := isWord_of_alnum hfirst
  have hend : wordAt u (c :: tail).getLast? = true := by
    cases hget : (c :: tail).getLast? with
    | none => simp [hget] at hlast
    | some d =>
        rw [hget] at hlast
        exact isWord_of_alnum hlast
  unfold matchWord
  simp only [matchEnd_of_word hend]
  have hbare : (if wordAt u before ≠ wordAt u s.head? ∧ c :: tail <+: s then
      (if wordAt u (s.drop (c :: tail).length).head? = false then some [] else none).map fun stop =>
        c :: tail ++ stop else none) =
      if c :: tail <+: s ∧ wordAt u before = false ∧ wordAt u (s.drop (c :: tail).length).head? = false then
        some (c :: tail) else none := by
    by_cases hstarts : c :: tail <+: s
    · obtain ⟨b, rfl⟩ := hstarts
      have hhead : wordAt u (c :: tail ++ b).head? = true := hc
      rw [hhead]
      cases wordAt u before <;> cases wordAt u (((c :: tail ++ b).drop (c :: tail).length).head?) <;> simp
    · rw [if_neg (fun h => hstarts h.2), if_neg (fun h => hstarts h.1)]
  have hbehind : (if '_' :: c :: tail <+: s then
      (if wordAt u (s.drop ((c :: tail).length + 1)).head? = false then some [] else none).map fun stop =>
        '_' :: c :: tail ++ stop else none) =
      if '_' :: c :: tail <+: s ∧ wordAt u (s.drop ((c :: tail).length + 1)).head? = false then
        some ('_' :: c :: tail) else none := by
    by_cases hstarts : '_' :: c :: tail <+: s
    · simp [hstarts]
    · rw [if_neg hstarts, if_neg (fun h => hstarts h.1)]
  rw [hbare, hbehind]
  split
  · rfl
  · rfl

/-- The word stands alone at a position. -/
theorem matchWord_bare (hword : ProperWord word) {b : List Char} (hbefore : wordAt u before = false)
    (hafter : wordAt u b.head? = false) : matchWord u word before (word ++ b) = some word := by
  rw [matchWord_eq hword, if_pos]
  exact ⟨List.prefix_append word b, hbefore, by rwa [List.drop_left]⟩

/-- The word stands behind an underscore at a position. -/
theorem matchWord_behind (hword : ProperWord word) {b : List Char} (hafter : wordAt u b.head? = false) :
    matchWord u word before ('_' :: word ++ b) = some ('_' :: word) := by
  have hne : ¬ word <+: '_' :: word ++ b := by
    obtain ⟨hfirst, -⟩ := hword
    cases word with
    | nil => cases hfirst
    | cons c tail =>
        intro hstarts
        obtain ⟨rfl, -⟩ := List.cons_prefix_cons.1 hstarts
        have hunderscore : (Pep440.isDigit '_' || Pep440.isLetter '_'.toLower) = true := hfirst
        exact absurd hunderscore (by decide)
  rw [matchWord_eq hword, if_neg (fun h => hne h.1), if_pos]
  refine ⟨List.prefix_append ('_' :: word) b, ?_⟩
  have hdrop : ('_' :: word ++ b).drop ('_' :: word).length = b := List.drop_left
  rw [List.length_cons] at hdrop
  rwa [hdrop]

/-- What a pattern of the second group matches. -/
theorem matchWord_eq_some (hword : ProperWord word) (h : matchWord u word before s = some t) :
    (∃ b, s = word ++ b ∧ wordAt u before = false ∧ wordAt u b.head? = false ∧ t = word) ∨
      ∃ b, s = '_' :: word ++ b ∧ wordAt u b.head? = false ∧ t = '_' :: word := by
  rw [matchWord_eq hword] at h
  split at h
  · rename_i hbare
    obtain ⟨⟨b, rfl⟩, hbefore, hafter⟩ := hbare
    rw [List.drop_left] at hafter
    exact .inl ⟨b, rfl, hbefore, hafter, (Option.some.inj h).symm⟩
  · split at h
    · rename_i hbehind
      obtain ⟨⟨b, rfl⟩, hafter⟩ := hbehind
      have hdrop : ('_' :: word ++ b).drop ('_' :: word).length = b := List.drop_left
      rw [List.length_cons] at hdrop
      rw [hdrop] at hafter
      exact .inr ⟨b, rfl, hafter, (Option.some.inj h).symm⟩
    · cases h

theorem search_word_eq_none (hword : ProperWord word) :
    Search.search (matchWord u word) s = none ↔ ¬ Mentioned u word s := by
  rw [Search.search_eq_none]
  constructor
  · rintro h ⟨a, b, heq, hbefore, hafter⟩
    rcases hbefore with hbare | hbehind
    · have hmatch := h a (word ++ b) heq
      rw [matchWord_bare hword hbare hafter] at hmatch
      cases hmatch
    · obtain ⟨a, rfl⟩ := List.getLast?_eq_some_iff.1 hbehind
      have hmatch := h a ('_' :: word ++ b) (by rw [heq]; simp)
      rw [matchWord_behind hword hafter] at hmatch
      cases hmatch
  · intro h a b heq
    cases hmatch : matchWord u word a.getLast? b with
    | none => rfl
    | some t =>
        exfalso
        apply h
        rcases matchWord_eq_some hword hmatch with ⟨b', rfl, hbefore, hafter, -⟩ | ⟨b', rfl, hafter, -⟩
        · exact ⟨a, b', heq, .inl hbefore, hafter⟩
        · exact ⟨a ++ ['_'], b', by rw [heq]; simp, .inr (by simp), hafter⟩

/-- The word itself is matched if it stands alone before it stands behind an
underscore. -/
theorem search_word_eq_some (hword : ProperWord word) :
    Search.search (matchWord u word) s = some word ↔ MentionedBare u word s := by
  constructor
  · intro h
    obtain ⟨a, b, heq, hmatch, hfirst⟩ := Search.search_eq_some h
    rcases matchWord_eq_some hword hmatch with ⟨b', rfl, hbefore, hafter, -⟩ | ⟨b', -, -, hself⟩
    · refine ⟨a, b', heq, hbefore, hafter, ?_⟩
      intro a' b'' heq' hafter'
      apply hfirst a' _ heq'
      rw [matchWord_behind hword hafter']
      simp
    · have hlength := congrArg List.length hself
      simp at hlength
  · rintro ⟨a, b, heq, hbefore, hafter, hfirst⟩
    cases hsearch : Search.search (matchWord u word) s with
    | none =>
        rw [search_word_eq_none hword] at hsearch
        exact absurd ⟨a, b, heq, .inl hbefore, hafter⟩ hsearch
    | some t =>
        obtain ⟨a₀, b₀, heq₀, hmatch, hleast⟩ := Search.search_eq_some hsearch
        rcases matchWord_eq_some hword hmatch with ⟨-, -, -, -, rfl⟩ | ⟨b', rfl, hafter', rfl⟩
        · rfl
        · -- the match behind an underscore would be at the position of the word
          have hle := hfirst a₀ b' heq₀ hafter'
          have hle' := hleast a _ heq (by rw [matchWord_bare hword hbefore hafter]; simp)
          have hsplit := List.append_inj (heq.symm.trans heq₀) (by omega)
          obtain ⟨rfl, hrest⟩ := hsplit
          rw [← hrest, matchWord_bare hword hbefore hafter] at hmatch
          exact hmatch.symm

/-! ## The components -/

theorem mem_findTools {toolStrBlock : List UInt8} {name : String} (h : name ∈ findTools toolStrBlock) :
    name.toList.head?.any isToolNameChar = true := by
  unfold findTools at h
  simp only at h
  split at h
  · cases h
  · rw [List.mem_insertionSort, List.mem_dedup] at h
    exact (List.mem_filter.1 h).2

theorem mem_componentsFrom {skip : Nat} {content : List UInt8} {name : String}
    (h : name ∈ componentsFrom skip content) : name.toList.head?.any isToolNameChar = true := by
  induction content generalizing skip with
  | nil => simp [componentsFrom] at h
  | cons b rest ih =>
      cases skip with
      | succ skip => exact ih h
      | zero =>
          simp only [componentsFrom] at h
          split at h
          · split at h
            · exact ih h
            · exact mem_findTools h
          · exact ih h

/-- A component begins with a lower case letter or a bracket. -/
theorem head_component {content : List UInt8} {name : String}
    (h : name ∈ getBusyboxComponents content) {c : Char} (hc : name.toList.head? = some c) :
    c ≠ '"' ∧ c ≠ '_' := by
  have hname := mem_componentsFrom h
  rw [hc] at hname
  have hchar : isToolNameChar c = true := hname
  constructor
  · rintro rfl
    exact absurd hchar (by decide)
  · rintro rfl
    exact absurd hchar (by decide)

/-! ## Which CVEs are kept -/

theorem getMatchedWords_eq_nil {summary : String} :
    getMatchedWords u summary = [] ↔ ∀ tool, ¬ Names u tool summary := by
  unfold getMatchedWords
  rw [List.append_eq_nil_iff, List.map_eq_nil_iff, List.map_eq_nil_iff, List.filterMap_eq_nil_iff,
    List.filterMap_eq_nil_iff]
  constructor
  · rintro ⟨hfirst, hsecond⟩ tool (⟨htool, hquoted⟩ | ⟨htool, hmentioned⟩)
    · exact search_quoted_eq_none.1 (hfirst tool htool) hquoted
    · exact (search_word_eq_none (properWord_group2 htool)).1 (hsecond tool htool) hmentioned
  · intro h
    constructor
    · intro tool htool
      exact search_quoted_eq_none.2 fun hquoted => h tool (.inl ⟨htool, hquoted⟩)
    · intro tool htool
      exact (search_word_eq_none (properWord_group2 htool)).2 fun hmentioned =>
        h tool (.inr ⟨htool, hmentioned⟩)

/-- A component that is matched is a tool of the second group that stands alone
first; all other matches have another first character. -/
theorem component_mem_getMatchedWords {content : List UInt8} {name summary : String}
    (hname : name ∈ getBusyboxComponents content) :
    name ∈ getMatchedWords u summary ↔
      name ∈ group2 ∧ MentionedBare u name.toList summary.toList := by
  unfold getMatchedWords
  rw [List.mem_append, List.mem_map, List.mem_map]
  constructor
  · rintro (⟨t, ht, rfl⟩ | ⟨t, ht, rfl⟩)
    · obtain ⟨tool, -, hsearch⟩ := List.mem_filterMap.1 ht
      have hquote := search_quoted_head hsearch
      exact absurd rfl (head_component hname (by rw [String.toList_ofList]; exact hquote)).1
    · obtain ⟨tool, htool, hsearch⟩ := List.mem_filterMap.1 ht
      have hproper := properWord_group2 htool
      obtain ⟨a, b, -, hmatch, -⟩ := Search.search_eq_some hsearch
      rcases matchWord_eq_some hproper hmatch with ⟨-, -, -, -, rfl⟩ | ⟨-, -, -, rfl⟩
      · rw [String.ofList_toList]
        exact ⟨htool, (search_word_eq_some hproper).1 hsearch⟩
      · exact absurd rfl (head_component hname (by rw [String.toList_ofList]; rfl)).2
  · rintro ⟨htool, hbare⟩
    refine .inr ⟨name.toList, List.mem_filterMap.2 ⟨name, htool, ?_⟩, String.ofList_toList⟩
    exact (search_word_eq_some (properWord_group2 htool)).2 hbare

/-- The CVEs that concern the binary are kept: those that name no tool, or one
of its components. -/
def KeepsRelevant (u : UnicodeTables) (content : List UInt8) (cves : Dict String Cve) : Prop :=
  ∀ cveId cve, cves.get? cveId = some cve →
    ((filterCvesByComponent u cves (getBusyboxComponents content)).get? cveId = some cve ↔
      (∀ tool, ¬ Names u tool cve.summary) ∨
        ∃ tool ∈ getBusyboxComponents content, Names u tool cve.summary)

/-- If a component is named, some component of the second group is named that
stands alone before it stands behind an underscore. -/
def NamedBare (u : UnicodeTables) (content : List UInt8) (cve : Cve) : Prop :=
  (∃ tool ∈ getBusyboxComponents content, Names u tool cve.summary) →
    ∃ tool ∈ getBusyboxComponents content, tool ∈ group2 ∧
      MentionedBare u tool.toList cve.summary.toList

theorem MentionedBare.mentioned (h : MentionedBare u word s) : Mentioned u word s := by
  obtain ⟨a, b, heq, hbefore, hafter, -⟩ := h
  exact ⟨a, b, heq, .inl hbefore, hafter⟩

/-- A CVE is kept if nothing is matched, or a component of the second group by
itself. -/
theorem get?_filterCvesByComponent (u : UnicodeTables) (content : List UInt8) {cves : Dict String Cve}
    {cveId : String} {cve : Cve} (hcve : cves.get? cveId = some cve) :
    (filterCvesByComponent u cves (getBusyboxComponents content)).get? cveId = some cve ↔
      (∀ tool, ¬ Names u tool cve.summary) ∨ ∃ tool ∈ getBusyboxComponents content, tool ∈ group2 ∧
        MentionedBare u tool.toList cve.summary.toList := by
  have hmatched : ((getMatchedWords u cve.summary).any fun word =>
      decide (word ∈ getBusyboxComponents content)) = true ↔
      ∃ tool ∈ getBusyboxComponents content, tool ∈ group2 ∧
        MentionedBare u tool.toList cve.summary.toList := by
    rw [List.any_eq_true]
    constructor
    · rintro ⟨tool, hword, hmem⟩
      have hcomponent : tool ∈ getBusyboxComponents content := of_decide_eq_true hmem
      exact ⟨tool, hcomponent, (component_mem_getMatchedWords hcomponent).1 hword⟩
    · rintro ⟨tool, hcomponent, hbare⟩
      exact ⟨tool, (component_mem_getMatchedWords hcomponent).2 hbare, decide_eq_true hcomponent⟩
  rw [filterCvesByComponent, Dict.get?_filter, and_iff_right hcve, keepsCve, Bool.or_eq_true,
    decide_eq_true_iff, getMatchedWords_eq_nil, hmatched]

/-- The relevant CVEs are kept if and only if those that name a component name
one of the second group by itself. -/
theorem keepsRelevant_iff (content : List UInt8) (cves : Dict String Cve) :
    KeepsRelevant u content cves ↔
      ∀ cveId cve, cves.get? cveId = some cve → NamedBare u content cve := by
  apply forall_congr'
  intro cveId
  apply forall_congr'
  intro cve
  apply imp_congr_right
  intro hcve
  have hkept := get?_filterCvesByComponent u content hcve
  have hnames : (∃ tool ∈ getBusyboxComponents content, tool ∈ group2 ∧
      MentionedBare u tool.toList cve.summary.toList) →
      ∃ tool ∈ getBusyboxComponents content, Names u tool cve.summary := by
    rintro ⟨tool, hmem, htool, hbare⟩
    exact ⟨tool, hmem, .inr ⟨htool, hbare.mentioned⟩⟩
  rw [hkept, NamedBare]
  constructor
  · intro hiff hcomponent
    rcases hiff.2 (.inr hcomponent) with hnone | hbare
    · obtain ⟨tool, -, hnamed⟩ := hcomponent
      exact absurd hnamed (hnone tool)
    · exact hbare
  · intro hbare
    constructor
    · exact Or.imp_right hnames
    · exact Or.imp_right hbare

/-! ## A fix that names a file of the tool -/

/-- The names of a binary, padded to a multiple of four bytes. -/
def gunzipBinary : List UInt8 :=
  asciiBytes "[" ++ [0, 0, 0] ++ asciiBytes "[[" ++ [0, 0] ++ asciiBytes "gunzip" ++ [0, 0] ++
    asciiBytes "sh" ++ [0, 0] ++ asciiBytes "wget" ++ [0]

def gunzipCve : Cve :=
  { cveId := "CVE-2021-28831", year := "2021"
    summary := "decompress_gunzip.c in BusyBox mishandles the error bit" }

def gunzipCves : Dict String Cve := (∅ : Dict String Cve).set gunzipCve.cveId gunzipCve

/-- What is matched is `_gunzip`, which is no component. -/
theorem gunzip_not_kept : ¬ KeepsRelevant asciiTables gunzipBinary gunzipCves := by
  have hcomponents : getBusyboxComponents gunzipBinary = ["[", "[[", "gunzip", "sh", "wget"] := by
    decide +kernel
  have hcomponent : "gunzip" ∈ getBusyboxComponents gunzipBinary := by
    rw [hcomponents]
    simp
  have hnamed : Names asciiTables "gunzip" gunzipCve.summary := by
    refine .inr ⟨by decide +kernel, "decompress_".toList, ".c in BusyBox mishandles the error bit".toList, ?_⟩
    refine ⟨by decide +kernel, .inr (by decide +kernel), by decide +kernel⟩
  have hcve : gunzipCves.get? "CVE-2021-28831" = some gunzipCve := by decide +kernel
  intro hkeeps
  have hkept := (hkeeps "CVE-2021-28831" gunzipCve hcve).2 (.inr ⟨"gunzip", hcomponent, hnamed⟩)
  rcases (get?_filterCvesByComponent asciiTables gunzipBinary hcve).1 hkept with hnone | hbare
  · exact hnone "gunzip" hnamed
  · obtain ⟨tool, hmem, htool, hbare⟩ := hbare
    rw [hcomponents] at hmem
    -- no component is what its own pattern finds in the summary
    have hother : (["[", "[[", "gunzip", "sh", "wget"].all fun tool =>
        Search.search (matchWord asciiTables tool.toList) gunzipCve.summary.toList ≠ some tool.toList) = true := by
      decide +kernel
    have hne := of_decide_eq_true (List.all_eq_true.1 hother tool hmem)
    exact hne ((search_word_eq_some (properWord_group2 htool)).2 hbare)

end CveLookup

end FactCore
