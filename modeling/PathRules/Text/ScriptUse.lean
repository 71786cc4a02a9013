import PathRules.Text.Script
/-!
Characters that several scripts use. Such a character belongs to one script or to none,
but it is found under any script that it is used in.
-/

namespace PathRules.Text

/-- For each script the characters that it shares with other scripts, or that belong to another one
although only this script uses them. -/
def sharedCharacters : List (String × String) :=
  [("Adlm", "61F 640 204F 2E41"),
    ("Aghb", "304 331 35E"),
    ("Arab", "60C 61B-61C 61F 640 64B-655 660-669 670 6D4 204F 2E41 FD3E-FD3F FDF2 FDFD " ++
      "102E0-102FB"),
    ("Armn", "308 589"),
    ("Avst", "B7 2E30-2E31"),
    ("Beng", "2BC 951-952 964-965 9E6-9EF 1CD0 1CD2 1CD5-1CD6 1CD8 1CE1 1CEA 1CED 1CF2 " ++
      "1CF5-1CF7 A8F1"),
    ("Bopo", "2C7 2C9-2CB 2D9 3001-3003 3008-3011 3013-301F 302A-302D 3030 3037 30FB FE45-FE46 " ++
      "FF61-FF65"),
    ("Bugi", "A9CF"),
    ("Buhd", "1735-1736"),
    ("Cakm", "9E6-9EF 1040-1049"),
    ("Cari", "B7 205A 205D 2E31"),
    ("Cher", "300-302 304 30B-30C 323-324 330-331"),
    ("Copt", "B7 300 304-305 307 374-375 2E17 102E0-102FB"),
    ("Cpmn", "10100-10101"),
    ("Cprt", "10100-10102 10107-10133 10137-1013F"),
    ("Cyrl", "2BC 300-302 304 306 308 30B 311 483-487 1DF8 2E43 A66F"),
    ("Deva", "2BC 951-952 964-96F 1CD0-1CF6 1CF8-1CF9 20F0 A830-A839 A8F1 A8F3"),
    ("Dogr", "964-96F A830-A839"),
    ("Dupl", "B7 307-308 30A 323-324 2E3C 1BCA0-1BCA3"),
    ("Elba", "B7 305"),
    ("Ethi", "30E"),
    ("Gara", "60C 61B 61F"),
    ("Geor", "B7 589 10FB 205A 2E31"),
    ("Glag", "B7 303 305 484 487 589 10FB 205A 2E43 A66F"),
    ("Gong", "B7 964-965"),
    ("Gonm", "964-965"),
    ("Goth", "B7 304-305 308 331"),
    ("Gran", "951-952 964-965 BE6-BF3 1CD0 1CD2-1CD3 1CF2-1CF4 1CF8-1CF9 20F0 11301 11303 " ++
      "1133B-1133C 11FD0-11FD1 11FD3"),
    ("Grek", "B7 300-301 304 306 308 313 342 345 374-375 1DC0-1DC1 205D"),
    ("Gujr", "951-952 964-965 AE6-AEF A830-A839"),
    ("Gukh", "965"),
    ("Guru", "951-952 964-965 A66-A6F A830-A839"),
    ("Hang", "3001-3003 3008-3011 3013-301F 3030 3037 30FB FE45-FE46 FF61-FF65"),
    ("Hani", "B7 2FF0-2FFF 3001-3003 3006 3008-3011 3013-301F 302A-302D 3030 3037 303C-303F " ++
      "30FB 3190-319F 31C0-31E5 31EF 3220-3247 3280-32B0 32C0-32CB 32FF 3358-3370 " ++
      "337B-337F 33E0-33FE A700-A707 FE45-FE46 FF61-FF65 1D360-1D371 1F250-1F251"),
    ("Hano", "1735-1736"),
    ("Hebr", "307-308"),
    ("Hira", "3001-3003 3008-3011 3013-301F 3030-3035 3037 303C-303D 3099-309C 30A0 30FB-30FC " ++
      "FE45-FE46 FF61-FF65 FF70 FF9E-FF9F"),
    ("Hung", "205A 205D 2E31 2E41"),
    ("Java", "A9CF"),
    ("Kali", "A92E"),
    ("Kana", "305 323 3001-3003 3008-3011 3013-301F 3030-3035 3037 303C-303D 3099-309C 30A0 " ++
      "30FB-30FC FE45-FE46 FF61-FF65 FF70 FF9E-FF9F"),
    ("Khoj", "AE6-AEF A830-A839"),
    ("Knda", "951-952 964-965 CE6-CEF 1CD0 1CD2-1CD3 1CDA 1CF2 1CF4 A830-A835"),
    ("Kthi", "966-96F 2E31 A830-A839"),
    ("Latn", "B7 2BC 2C7 2C9-2CB 2CD 2D7 2D9 300-30E 310-311 313 323-325 32D-32E 330-331 358 " ++
      "35E 363-36F 485-486 951-952 10FB 1DF8 202F 20F0 2E17 A700-A707 A92E"),
    ("Limb", "965"),
    ("Lina", "10107-10133"),
    ("Linb", "10100-10102 10107-10133 10137-1013F"),
    ("Lisu", "2BC 2CD 300A-300B"),
    ("Lyci", "205A"),
    ("Lydi", "B7 2E31"),
    ("Mahj", "B7 964-96F A830-A839"),
    ("Mand", "640"),
    ("Mani", "640 10AF2"),
    ("Mero", "205D"),
    ("Mlym", "951-952 964-965 1CDA 1CF2 A830-A832"),
    ("Modi", "A830-A839"),
    ("Mong", "1802-1803 1805 202F 3001-3002 3008-300B"),
    ("Mult", "A66-A6F"),
    ("Mymr", "1040-1049 A92E"),
    ("Nand", "951 964-965 CE6-CEF 1CE9 1CF2 1CFA A830-A835"),
    ("Newa", "951-952 1CD5 1CD7-1CD8 1CE2 1CE9 1CEB 1CED"),
    ("Nkoo", "60C 61B 61F FD3E-FD3F"),
    ("Onao", "964-965"),
    ("Orkh", "205A 2E30"),
    ("Orya", "951-952 964-965 1CDA 1CF2"),
    ("Osge", "301 304 30B 358"),
    ("Ougr", "640 10AF2"),
    ("Perm", "B7 300 306-308 313 483"),
    ("Phag", "1802-1803 1805 202F 3002"),
    ("Phlp", "640"),
    ("Rohg", "60C 61B 61F 640 6D4"),
    ("Runr", "16EB-16ED"),
    ("Samr", "2E31"),
    ("Shaw", "B7"),
    ("Shrd", "951 1CD7 1CD9 1CDC-1CDD 1CE0 1CEA 1CED A830-A835 A838"),
    ("Sind", "964-965 A830-A839"),
    ("Sinh", "964-965 1CF2"),
    ("Sogd", "640"),
    ("Sunu", "300-301 303 30D 310 32D 331"),
    ("Sylo", "964-965 9E6-9EF"),
    ("Syrc", "303-304 307-308 30A 323-325 32D-32E 330-331 60C 61B-61C 61F 640 64B-655 670 1DF8 " ++
      "1DFA"),
    ("Tagb", "1735-1736"),
    ("Takr", "964-965 A830-A839"),
    ("Tale", "300-301 307-308 30C 1040-1049"),
    ("Taml", "951-952 964-965 BE6-BF3 1CDA A8F3 11301 11303 1133B-1133C 11FD0-11FD1 11FD3"),
    ("Tang", "2FF0-2FFF 31EF"),
    ("Telu", "951-952 964-965 1CD5-1CD6 1CD8 1CDA 1CF2"),
    ("Tfng", "302 304 306-309 323"),
    ("Tglg", "1735-1736"),
    ("Thaa", "60C 61B-61C 61F 660-669 FDF2 FDFD"),
    ("Thai", "2BC 2D7 303 331"),
    ("Tibt", "3008-300B"),
    ("Tirh", "951-952 964-965 1CD5 1CE2 1CF2 A830-A839"),
    ("Todr", "301 304 307 311 313 35E"),
    ("Toto", "2BC"),
    ("Tutg", "CE6-CEF 1CF2 1CF4 A830-A835 A8F1"),
    ("Yezi", "60C 61B 61F 660-669"),
    ("Yiii", "3001-3002 3008-3011 3014-301B 30FB FF61-FF65")]

/-- All characters whose use is not just that of the script they belong to. -/
def sharedSet : CharSet :=
  .unions (sharedCharacters.map fun (_, text) => .ofText text)

def scriptUse (code : String) : CharSet :=
  let own := (scriptSet code).diff sharedSet
  match sharedCharacters.lookup code with
  | some text => own.union (.ofText text)
  | none => own

end PathRules.Text
