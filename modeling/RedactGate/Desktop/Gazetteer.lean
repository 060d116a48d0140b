import RedactGate.Library.Casing
import Mathlib.Data.List.Sort

/-!
# Gazetteer

First names, found in any case by their stems. Surnames are in no list.
-/
namespace RedactGate.Desktop

open Library

/-- The words of a table, which stand between spaces and line breaks. -/
def tableWords (table : String) : List Text :=
  (table.toList.splitOnP fun c => c = ' ' || c = '\n').filter (!·.isEmpty)

def ukMale : List Text := tableWords "
Андрій Антон Анатолій Арсен Артем Артур Богдан Борис Вадим Валентин Валерій Василь Віктор
Віталій Володимир Вʼячеслав Вячеслав Геннадій Георгій Григорій Давид Данило Денис Дмитро
Євген Едуард Захар Іван Ігор Ілля Йосип Кирило Костянтин Леонід Лев Максим Марко Матвій
Микита Микола Михайло Назар Олег Олександр Олексій Остап Павло Петро Роман Ростислав
Руслан Сергій Святослав Семен Станіслав Степан Тарас Тимофій Тимур Федір Юрій Ярослав
Яків Зиновій Мирослав Орест Любомир Всеволод Гліб Устим Нестор Омелян Харитон Філіп Пилип"

def ukFemale : List Text := tableWords "
Аліна Алла Анастасія Анна Ганна Антоніна Валентина Валерія Вікторія Віра Галина Дарина
Діана Євгенія Єлизавета Жанна Зоя Зоряна Ірина Інна Катерина Кіра Лариса Леся Лідія Лілія
Людмила Любов Марина Марія Маргарита Мирослава Надія Наталія Наталя Ніна Оксана Олена
Ольга Олександра Поліна Раїса Римма Світлана Софія Соломія Тамара Тетяна Уляна Христина
Юлія Яна Ярослава Богдана Василина Віталіна Злата Мілана Мар'яна Маряна Роксолана Емілія"

def ru : List Text := tableWords "
Александр Алексей Анатолий Андрей Антон Аркадий Артём Артем Борис Вадим Валентин Валерий
Василий Виктор Виталий Владимир Владислав Вячеслав Геннадий Георгий Григорий Даниил Денис
Дмитрий Евгений Егор Иван Игорь Илья Кирилл Константин Леонид Максим Михаил Никита Николай
Олег Павел Пётр Петр Роман Руслан Семён Семен Сергей Станислав Степан Тимур Фёдор Федор
Юрий Ярослав Яков Анастасия Анна Валентина Валерия Вера Виктория Галина Дарья Евгения
Екатерина Елена Елизавета Ирина Инна Карина Кристина Ксения Лариса Лидия Любовь Людмила
Марина Мария Надежда Наталья Нина Оксана Ольга Полина Светлана София Софья Тамара Татьяна
Ульяна Юлия Яна Алёна Алена Василиса Зинаида Маргарита Олеся Таисия Эльвира Эдуард"

def en : List Text := tableWords "
James John Robert Michael William David Richard Joseph Thomas Charles Christopher Daniel
Matthew Anthony Mark Donald Steven Paul Andrew Joshua Kenneth Kevin Brian George Timothy
Ronald Edward Jason Jeffrey Ryan Jacob Gary Nicholas Eric Jonathan Stephen Larry Justin
Scott Brandon Benjamin Samuel Gregory Alexander Frank Patrick Raymond Jack Dennis Jerry
Tyler Aaron Jose Adam Nathan Henry Douglas Zachary Peter Kyle Noah Ethan Jeremy Walter
Christian Keith Roger Terry Austin Sean Gerald Carl Harold Dylan Arthur Lawrence Jordan
Jesse Bryan Billy Bruce Gabriel Joe Logan Alan Juan Albert Willie Elijah Wayne Randy Vincent
Liam Lucas Oliver Owen Luke Isaac Ian Graham Colin Neil Simon Martin Philip Maxim Maksym
Mary Patricia Jennifer Linda Elizabeth Barbara Susan Jessica Sarah Karen Lisa Nancy Betty
Sandra Margaret Ashley Kimberly Emily Donna Michelle Carol Amanda Melissa Deborah Stephanie
Dorothy Rebecca Sharon Laura Cynthia Amy Kathleen Angela Shirley Brenda Emma Anna Pamela
Nicole Samantha Katherine Christine Helen Debra Rachel Carolyn Janet Maria Catherine Heather
Diane Olivia Julie Joyce Victoria Ruth Virginia Lauren Kelly Christina Joan Evelyn Judith
Andrea Hannah Megan Cheryl Jacqueline Martha Madison Teresa Gloria Sara Janice Ann Kathryn
Abigail Sophia Frances Jean Alice Judy Isabella Julia Grace Amber Denise Danielle Marilyn
Beverly Charlotte Natalie Theresa Diana Brittany Doris Kayla Alexis Lori Marie Chloe Claire
Sophie Ava Mia Zoe Lily Ella Avery Harper Aria Nora Riley Leah Hazel Violet Aurora"

/-- What `str.maketrans` makes of a table: other characters stay as they are. -/
def translate (table : List (Char × Text)) (text : Text) : Text :=
  text.flatMap fun c => (table.lookup c).getD [c]

def translitTable : List (Char × Text) :=
  [('а', "a".toList), ('б', "b".toList), ('в', "v".toList), ('г', "h".toList), ('ґ', "g".toList),
    ('д', "d".toList), ('е', "e".toList), ('є', "ie".toList), ('ж', "zh".toList),
    ('з', "z".toList), ('и', "y".toList), ('і', "i".toList), ('ї', "i".toList), ('й', "i".toList),
    ('к', "k".toList), ('л', "l".toList), ('м', "m".toList), ('н', "n".toList), ('о', "o".toList),
    ('п', "p".toList), ('р', "r".toList), ('с', "s".toList), ('т', "t".toList), ('у', "u".toList),
    ('ф', "f".toList), ('х', "kh".toList), ('ц', "ts".toList), ('ч', "ch".toList),
    ('ш', "sh".toList), ('щ', "shch".toList), ('ь', []), ('ю', "iu".toList), ('я', "ia".toList),
    ('\'', []), ('’', []), ('ʼ', []), ('ё', "e".toList), ('ы', "y".toList), ('э', "e".toList),
    ('ъ', [])]

def translitRuTable : List (Char × Text) :=
  [('г', "g".toList), ('и', "i".toList), ('й', "y".toList), ('х', "kh".toList),
    ('ю', "yu".toList), ('я', "ya".toList)]

/-- The case endings, the longer ones first. -/
def endings : List Text :=
  (tableWords "ові еві єві ою ею єю ого ому ими ій ої ий им ом ем єм ах ям ам ым ой ей ую
а я у ю і и е о ї ь й ы").insertionSort fun a b => b.length ≤ a.length

def apostrophes : Text := ['\'', '’', 'ʼ', '`']

section

variable (casing : Casing)

def normToken (token : Text) : Text :=
  Text.replaceChar 'ё' 'е' ((casing.fold token).filter fun c => decide (c ∉ apostrophes))

/-- A small letter with which Cyrillic words start. -/
def startsCyrillic (c : Char) : Bool :=
  decide ('а' ≤ c) && decide (c ≤ 'я') || decide (c ∈ "іїєґ".toList)

/-- Strip one case ending from a token, the first of the list that fits, as long as three letters
are left. -/
def stripEnding (t : Text) : Text :=
  match endings.find? fun e => e.isSuffixOf t && decide (3 ≤ t.length - e.length) with
  | some e => t.take (t.length - e.length)
  | none => t

/-- The definition as an equation of functions: no check of it evaluates the table. -/
theorem stripEnding_def : stripEnding = fun t =>
    match endings.find? fun e => e.isSuffixOf t && decide (3 ≤ t.length - e.length) with
    | some e => t.take (t.length - e.length)
    | none => t := by
  delta stripEnding
  exact Eq.refl _

/-- `stem` of a token: a Cyrillic one loses one case ending, and from a Latin one only the
possessive is dropped. -/
def stem (token : Text) : Text :=
  let t := normToken casing token
  if t.head?.any startsCyrillic then stripEnding t
  else if "'s".toList.isSuffixOf t then t.take (t.length - 2)
  else t

def translit (token : Text) (russian : Bool) : Text :=
  let t := normToken casing token
  translate translitTable (if russian then translate translitRuTable t else t)

def firstNameStems : List Text := (ukMale ++ ukFemale ++ ru).map (stem casing)

def firstNamesLatin : List Text :=
  (en.map casing.fold ++ (ukMale ++ ukFemale).map (translit casing · false) ++
    ru.flatMap fun w => [translit casing w true, translit casing w false]).filter (!·.isEmpty)

def nominativeFirst : List Text := (ukMale ++ ukFemale ++ ru ++ en).map (normToken casing)

def isFirstName (token : Text) : Bool :=
  match normToken casing token with
  | [] => false
  | c :: rest =>
    if 'a' ≤ c ∧ c ≤ 'z' then decide (c :: rest ∈ firstNamesLatin casing)
    else decide (stem casing token ∈ firstNameStems casing)

end

end RedactGate.Desktop
